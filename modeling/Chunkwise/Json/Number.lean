import Chunkwise.Json.Basic

/-!
# JSON numbers

A number is whole if it has neither point nor exponent and fits 64 bits. Any other one is a double: the digits are
gathered in a word of 64 bits, further digits only count places, and the word is scaled by one power of ten. A
number beyond the doubles is read as infinite, which no JSON text means.
-/

namespace Chunkwise
namespace Json

/-- The greatest number of a word. -/
def wordMax : Nat := Nat.pow 2 64 - 1

/-- The value of a decimal digit. -/
def digitValue (c : Char) : Nat := c.toNat - 48

/-- Ten to a power, as a double. -/
def pow10 (n : Nat) : Float := Float.ofScientific 1 false n

/-- A word scaled by a power of ten. -/
def scaleFrom (x : Float) (exponent : Int) : Float :=
  if h : exponent < -308 then
    if x == 0 then x else scaleFrom (x / pow10 308) (exponent + 308)
  else if exponent < 0 then x / pow10 exponent.natAbs
  else if exponent ≤ 308 then x * pow10 exponent.natAbs
  else if x == 0 then x
  else 1 / 0
termination_by (-exponent).toNat
decreasing_by omega

/-- The double of a sign, a word and a power of ten. -/
def scale (negative : Bool) (significand : Nat) (exponent : Int) : Float :=
  let x := scaleFrom (UInt64.ofNat significand).toFloat exponent
  if negative then -x else x

/-- The digits that a word can take in, and the number of digits left over. -/
def gather : Nat → List Char → Nat × List Char
  | significand, [] => (significand, [])
  | significand, c :: rest =>
    let next := significand * 10 + digitValue c
    if next ≤ wordMax then gather next rest else (significand, c :: rest)

/-- The exponent of a run of digits, unless it is beyond all reach. -/
def exponentOf (digits : List Char) : Option Nat :=
  digits.foldl (fun n c => n.bind fun n =>
    let next := n * 10 + digitValue c
    if next < Nat.pow 2 31 then some next else none) (some 0)

/-- The number written with a sign, digits, digits behind the point, and an exponent with a sign. -/
def number (negative : Bool) (whole : List Char) (fraction : Option (List Char))
    (power : Option (Bool × List Char)) : Json :=
  let (significand, extra) := gather 0 whole
  let (significand, exponent) : Nat × Int :=
    match fraction with
    | none => (significand, extra.length)
    | some digits =>
      let (all, left) := gather significand digits
      (all, (extra.length : Int) - (digits.length - left.length))
  match power with
  | some (minus, digits) =>
    match exponentOf digits with
    | some n => float (scale negative significand (if minus then exponent - n else exponent + n))
    | none =>
      if significand = 0 || minus then float (if negative then -0.0 else 0.0) else float (1 / 0)
  | none =>
    if fraction.isNone && extra.isEmpty && (!negative || (0 < significand && significand ≤ Nat.pow 2 63)) then
      int (if negative then -significand else significand)
    else float (scale negative significand exponent)

/-- The longest run of decimal digits. -/
def digits (cs : List Char) : List Char × List Char := (cs.takeWhile Char.isDigit, cs.dropWhile Char.isDigit)

/-- The point and the digits behind it, if a point follows. `none` if it has no digits. -/
def scanFraction : List Char → Option (Option (List Char) × List Char)
  | '.' :: rest =>
    match digits rest with
    | ([], _) => none
    | (ds, rest) => some (some ds, rest)
  | rest => some (none, rest)

/-- The sign and digits of an exponent. -/
def scanPower (rest : List Char) : Option (Option (Bool × List Char) × List Char) :=
  let (minus, rest) := match rest with
    | '-' :: rest => (true, rest)
    | '+' :: rest => (false, rest)
    | rest => (false, rest)
  match digits rest with
  | ([], _) => none
  | (ds, rest) => some (some (minus, ds), rest)

/-- The exponent, if one follows. `none` if it has no digits. -/
def scanExponent : List Char → Option (Option (Bool × List Char) × List Char)
  | 'e' :: rest => scanPower rest
  | 'E' :: rest => scanPower rest
  | rest => some (none, rest)

/-- A number without its sign, and what follows it. -/
def scanUnsigned (negative : Bool) (cs : List Char) : Option (Json × List Char) :=
  match digits cs with
  | ([], _) => none
  | ('0' :: _ :: _, _) => none
  | (whole, rest) =>
    match scanFraction rest with
    | none => none
    | some (fraction, rest) =>
      match scanExponent rest with
      | none => none
      | some (power, rest) => some (number negative whole fraction power, rest)

/-- A number and what follows it. -/
def scan : List Char → Option (Json × List Char)
  | '-' :: rest => scanUnsigned true rest
  | cs => scanUnsigned false cs

end Json
end Chunkwise
