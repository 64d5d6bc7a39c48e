import Chunkwise.Setting.Toml.Table
import Chunkwise.Setting.Toml.Word

/-!
# Settings in TOML

A TOML text is a list of lines: headers open a table, and entries add to the table opened last. A value is a string,
a list, a table on one line or a word.
-/

namespace Chunkwise
namespace Toml

/-! ## Values -/

/-- Fewer parts than these a key has, and fewer brackets than these stand around a value. -/
def depthLimit : Nat := 80

/-- A key that is not too deep. -/
def scanShallowKey (cs : List Char) : Scan (List String) :=
  (scanKey cs).filter fun (key, _) => key.length < depthLimit

mutual

/-- A value inside of which there may be so many brackets in brackets. -/
def scanValue : Nat → Nat → List Char → Scan Setting
  | 0, _, _ => none
  | fuel + 1, depth, cs =>
    match cs, depth with
    | '"' :: _, _ | '\'' :: _, _ => (scanString cs).map fun (_, rest) => (.scalar {}, rest)
    | '[' :: _, 0 | '\x7b' :: _, 0 => none
    | '[' :: rest, depth + 1 => (scanItems fuel depth rest).map fun (items, rest) => (.list false items, rest)
    | '\x7b' :: rest, depth + 1 =>
      match skipGap rest with
      | '\x7d' :: rest => some (.table [], rest)
      | rest => (scanEntries fuel depth [] rest).map fun (entries, rest) => (.table (settingsOf entries), rest)
    | _, _ =>
      let (word, rest) := scanWord cs
      (ofWord? word).map (·, rest)

/-- The items of a list up to its bracket. -/
def scanItems : Nat → Nat → List Char → Scan (List Setting)
  | 0, _, _ => none
  | fuel + 1, depth, cs =>
    match skipLines false cs with
    | ']' :: rest => some ([], rest)
    | rest =>
      match scanValue fuel depth rest with
      | none => none
      | some (item, rest) =>
        match skipLines false rest with
        | ',' :: rest => (scanItems fuel depth rest).map fun (items, rest) => (item :: items, rest)
        | ']' :: rest => some ([item], rest)
        | _ => none

/-- The entries of a table on one line up to its brace, after those read so far. -/
def scanEntries : Nat → Nat → List (String × Item) → List Char → Scan (List (String × Item))
  | 0, _, _, _ => none
  | fuel + 1, depth, entries, cs =>
    match scanShallowKey cs with
    | some (key, '=' :: rest) =>
      match scanValue fuel depth (skipGap rest) with
      | none => none
      | some (value, rest) =>
        match addKey key (.value value) entries, skipGap rest with
        | some entries, ',' :: rest => scanEntries fuel depth entries rest
        | some entries, '\x7d' :: rest => some (entries, rest)
        | _, _ => none
    | _ => none

end

/-! ## Documents -/

/-- A header with its brackets: whether it opens an element of a list, and its key. -/
def scanHeader : List Char → Scan (Bool × List String)
  | '[' :: '[' :: rest =>
    match scanShallowKey rest with
    | some (key, ']' :: ']' :: rest) => some ((true, key), rest)
    | _ => none
  | '[' :: rest =>
    match scanShallowKey rest with
    | some (key, ']' :: rest) => some ((false, key), rest)
    | _ => none
  | _ => none

/-- An entry: a key and a value. -/
def scanEntry (fuel : Nat) (cs : List Char) : Scan (List String × Setting) :=
  match scanShallowKey cs with
  | some (key, '=' :: rest) => (scanValue fuel (depthLimit - 1) (skipGap rest)).map fun (value, rest) => ((key, value), rest)
  | _ => none

/-- Adds an entry to the table that was opened last. -/
def addEntry (opened key : List String) (value : Setting) (entries : List (String × Item)) :
    Option (List (String × Item)) :=
  changeAt false (fun _ entries => addKey key (.value value) entries) opened false entries

/-- Opens what a header names. -/
def openHeader (element : Bool) (key : List String) (entries : List (String × Item)) :
    Option (List (String × Item)) :=
  match key.getLast? with
  | none => none
  | some last => if element then openElement key.dropLast last entries else openTable key.dropLast last entries

/-- The document of the lines of a text, added to a document with a table opened last. -/
def scanLines : Nat → List String → List (String × Item) → List Char → Option (List (String × Item))
  | 0, _, _, _ => none
  | fuel + 1, opened, entries, cs =>
    match skipLines false cs with
    | [] => some entries
    | '[' :: rest =>
      match scanHeader ('[' :: rest) with
      | none => none
      | some ((element, key), rest) =>
        match openHeader element key entries, finishLine rest with
        | some entries, some rest => scanLines fuel key entries rest
        | _, _ => none
    | rest =>
      match scanEntry (fuel + 1) rest with
      | none => none
      | some ((key, value), rest) =>
        match addEntry opened key value entries, finishLine rest with
        | some entries, some rest => scanLines fuel opened entries rest
        | _, _ => none

/-- A text without a byte order mark. -/
def dropMark : List Char → List Char
  | '\uFEFF' :: rest => rest
  | cs => cs

/-- What a text says. -/
def parse? (text : List Char) : Option Setting :=
  (scanLines (2 * text.length + 2) [] [] (dropMark text)).map fun entries => .table (settingsOf entries)

end Toml
end Chunkwise
