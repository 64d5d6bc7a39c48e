import Chunkwise.Json.Basic

/-!
# Settings

What a configuration file says, whatever its format. A scalar is known by what it can be read as, so that a format
may let one spelling stand for several types. A record is a table of its fields, or a list of them in order; where
fields may be missing, a list may end early, and the format says whether it may go on behind the last field.

* `record?_table`: the fields of a table without doubled names.
-/

namespace Chunkwise

/-- What a scalar can be read as. -/
structure Scalar where
  /-- Whether it stands for a value that is not there. -/
  absent : Bool := false
  /-- Whether it stands for a table without entries. -/
  empty : Bool := false
  bool : Option Bool := none
  count : Option Nat := none
  number : Option Float := none

/-- A decoded configuration value. -/
inductive Setting where
  | scalar (readings : Scalar)
  /-- A list; `strict` if one that stands for a record has no items behind its fields. -/
  | list (strict : Bool) (items : List Setting)
  | table (entries : List (String × Setting))

namespace Setting

/-- A truth value. -/
def bool? : Setting → Option Bool
  | scalar s => s.bool
  | _ => none

/-- A number of things. -/
def count? : Setting → Option Nat
  | scalar s => s.count
  | _ => none

/-- A number. -/
def number? : Setting → Option Float
  | scalar s => s.number
  | _ => none

/-- Whether a setting stands for a value that is not there. -/
def isAbsent : Setting → Bool
  | scalar s => s.absent
  | _ => false

/-- The entry of a name. -/
def valueOf? (entries : List (String × Setting)) (name : String) : Option Setting :=
  (entries.find? (·.1 == name)).map (·.2)

/-- Whether a name stands more than once. -/
def doubled (entries : List (String × Setting)) (name : String) : Bool := 1 < entries.countP (·.1 == name)

/-- The fields of a record with these names, as a look-up. -/
def record? (names : List String) : Setting → Option (String → Option Setting)
  | table entries => if names.any (doubled entries) then none else some (valueOf? entries)
  | list strict items =>
    if strict && names.length < items.length then none else some fun name => items[names.idxOf name]?
  | scalar s => if s.empty then some fun _ => none else none

/-- A map: its entries in order. -/
def entries? : Setting → Option (List (String × Setting))
  | table entries => some entries
  | list .. => none
  | scalar s => if s.empty then some [] else none

/-- A field with a default. -/
def field? (decode : Setting → Option α) (default : α) : Option Setting → Option α
  | none => some default
  | some v => decode v

/-- A field that may be absent. -/
def optional? (decode : Setting → Option α) : Option Setting → Option (Option α)
  | none => some none
  | some v => if v.isAbsent then some none else (decode v).map some

/-- The fields of a table without doubled names are its entries. -/
theorem record?_table {names : List String} {entries : List (String × Setting)}
    (h : ∀ name ∈ names, doubled entries name = false) : record? names (table entries) = some (valueOf? entries) := by
  rw [record?, if_neg]
  simpa using h

end Setting

/-! ## Settings of JSON values -/

namespace Json

/-- The readings of a whole number. -/
def intReadings (n : Int) : Scalar :=
  { count := if 0 ≤ n then some n.toNat else none, number := some (Float.ofInt n) }

/-- The readings of a number that is not whole; an infinite one is out of range. -/
def floatReadings (x : Float) : Scalar := { number := if x.isInf then none else some x }

mutual

/-- What a JSON value says as a setting. -/
def toSetting : Json → Setting
  | null => .scalar { absent := true }
  | bool b => .scalar { bool := some b }
  | int n => .scalar (intReadings n)
  | float x => .scalar (floatReadings x)
  | str _ => .scalar {}
  | arr items => .list true (toSettings items)
  | obj fields => .table (toEntries fields)

/-- What each JSON value says. -/
def toSettings : List Json → List Setting
  | [] => []
  | v :: rest => toSetting v :: toSettings rest

/-- What each field says. -/
def toEntries : List (String × Json) → List (String × Setting)
  | [] => []
  | (k, v) :: rest => (k, toSetting v) :: toEntries rest

end

end Json
end Chunkwise
