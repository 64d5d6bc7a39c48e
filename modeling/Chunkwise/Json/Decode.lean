import Chunkwise.Json.Basic

/-!
# Reading values out of JSON

What a JSON value means where a value of some type is expected. A count is a whole number that is not negative, a
list has every item of its type, a name of a fixed set may also be written as an object with that one field.

* `count?_count`, `strings?_strings`: what was written reads back.
-/

namespace Chunkwise
namespace Json

/-- The string of a value. -/
def str? : Json → Option String
  | str s => some s
  | _ => none

/-- The truth value of a value. -/
def bool? : Json → Option Bool
  | bool b => some b
  | _ => none

/-- The count of a value. -/
def count? : Json → Option Nat
  | int n => if 0 ≤ n then some n.toNat else none
  | _ => none

/-- The fields of an object. -/
def fields? : Json → Option (List (String × Json))
  | obj fields => some fields
  | _ => none

/-- The items of a list. -/
def items? : Json → Option (List Json)
  | arr items => some items
  | _ => none

/-- The items of a list, each of one type. -/
def list? (decode : Json → Option α) : Json → Option (List α)
  | arr items => items.mapM decode
  | _ => none

/-- A value that may be absent: `null` is, and so is a field that is not there. -/
def optional? (decode : Json → Option α) : Option Json → Option (Option α)
  | none => some none
  | some null => some none
  | some v => (decode v).map some

/-- A value with a default for a field that is not there. -/
def withDefault? (decode : Json → Option α) (default : α) : Option Json → Option α
  | none => some default
  | some v => decode v

/-- A name of a fixed set. -/
def name? (ofName : String → Option α) : Json → Option α
  | str s => ofName s
  | obj [(s, null)] => ofName s
  | _ => none

/-- A count reads back. -/
@[simp] theorem count?_count (n : Nat) : count? (count n) = some n := by simp [count?, count]

theorem mapM_map_some (encode : α → Json) (decode : Json → Option α) (h : ∀ a, decode (encode a) = some a)
    (items : List α) : (items.map encode).mapM decode = some items := by
  induction items with
  | nil => rfl
  | cons a rest ih => simp [List.mapM_cons, h, ih]

/-- A list of strings reads back. -/
@[simp] theorem strings?_strings (items : List String) : list? str? (strings items) = some items :=
  mapM_map_some str str? (fun _ => rfl) items

end Json
end Chunkwise
