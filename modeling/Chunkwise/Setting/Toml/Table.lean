import Chunkwise.Setting.Basic

/-!
# Tables in TOML

A document under construction. Tables come into being in four ways, and may not be defined twice: by a header, as the
parent of a headed table, by a dotted key, or as an element of a list of tables.
-/

namespace Chunkwise
namespace Toml

/-- A part of a document under construction. -/
inductive Item where
  | value (setting : Setting)
  /-- A table; `implied` if no header has defined it, `dotted` if a dotted key has. -/
  | table (implied dotted : Bool) (entries : List (String × Item))
  | tables (elements : List (List (String × Item)))

/-! ## Changes -/

/-- The item of a key. -/
def find? (key : String) (entries : List (String × Item)) : Option Item :=
  (entries.find? (·.1 == key)).map (·.2)

/-- Puts an item in the place of the one with the same key. -/
def replace (key : String) (item : Item) (entries : List (String × Item)) : List (String × Item) :=
  entries.map fun e => if e.1 == key then (key, item) else e

/-- Changes the table that a path leads to; parts of the path that are not there come into being. A dotted path
may not go through a table that a header has defined. The change is told whether a dotted key made the table. -/
def changeAt (dotted : Bool) (change : Bool → List (String × Item) → Option (List (String × Item))) :
    List String → Bool → List (String × Item) → Option (List (String × Item))
  | [], made, entries => change made entries
  | key :: path, _, entries =>
    match find? key entries with
    | none => (changeAt dotted change path dotted []).map fun sub => entries ++ [(key, .table true dotted sub)]
    | some (.value _) => none
    | some (.table implied made sub) =>
      if dotted && !implied then none
      else (changeAt dotted change path made sub).map fun sub => replace key (.table implied made sub) entries
    | some (.tables elements) =>
      match elements.getLast? with
      | none => none
      | some last =>
        (changeAt dotted change path false last).map fun last =>
          replace key (.tables (elements.dropLast ++ [last])) entries

/-- Adds an entry at a dotted key to a table. -/
def addAt (path : List String) (key : String) (item : Item) (entries : List (String × Item)) :
    Option (List (String × Item)) :=
  changeAt true (fun made entries =>
    if made == path.isEmpty || (find? key entries).isSome then none else some (entries ++ [(key, item)]))
    path false entries

/-- Adds an entry at a key with its parts. -/
def addKey (key : List String) (item : Item) (entries : List (String × Item)) : Option (List (String × Item)) :=
  match key.getLast? with
  | none => none
  | some last => addAt key.dropLast last item entries

/-- Opens the table of a header. -/
def openTable (path : List String) (key : String) (entries : List (String × Item)) :
    Option (List (String × Item)) :=
  changeAt false (fun _ entries =>
    match find? key entries with
    | none => some (entries ++ [(key, .table false false [])])
    | some (.table true false sub) => some (replace key (.table false false sub) entries)
    | some _ => none)
    path false entries

/-- Opens a new element of a list of tables. -/
def openElement (path : List String) (key : String) (entries : List (String × Item)) :
    Option (List (String × Item)) :=
  changeAt false (fun _ entries =>
    match find? key entries with
    | none => some (entries ++ [(key, .tables [[]])])
    | some (.tables elements) => some (replace key (.tables (elements ++ [[]])) entries)
    | some _ => none)
    path false entries

/-! ## What tables say -/

mutual

/-- What a document says. -/
def Item.toSetting : Item → Setting
  | .value setting => setting
  | .table _ _ entries => .table (settingsOf entries)
  | .tables elements => .list false (tablesOf elements)

/-- What the entries of a table say. -/
def settingsOf : List (String × Item) → List (String × Setting)
  | [] => []
  | (key, item) :: rest => (key, item.toSetting) :: settingsOf rest

/-- What the elements of a list of tables say. -/
def tablesOf : List (List (String × Item)) → List Setting
  | [] => []
  | entries :: rest => .table (settingsOf entries) :: tablesOf rest

end

end Toml
end Chunkwise
