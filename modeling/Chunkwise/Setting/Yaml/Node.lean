import Chunkwise.Setting.Yaml.Token

/-!
# The node of a YAML text

A text holds at most one document, and a document is one node: a scalar, a list or a table, whose keys are nodes too.
An alias stands for the node that was given its name last. Where a node may be left out, an empty plain scalar stands
for it.
-/

namespace Chunkwise
namespace Yaml

/-- What a document or a part of it says. -/
inductive Node where
  | scalar (style : Style) (tag : Option String) (text : String)
  | list (items : List Node)
  | table (entries : List (Node × Node))
  /-- What stands for a node that it is part of. -/
  | cycle

namespace Node

/-- What stands for a node that is left out. -/
def missing : Node := .scalar .plain none ""

/-- The nodes that have names, the last one first. -/
abbrev Anchors := List (String × Node)

/-- A part of a document, with the names known behind it and the tokens that follow. -/
abbrev Parsed (α : Type) := Option (α × Anchors × List Token)

/-- The name and the tag before a node, in either order. -/
def properties : List Token → Option String × Option (String × String) × List Token
  | .anchor name :: .tag handle suffix :: rest => (some name, some (handle, suffix), rest)
  | .tag handle suffix :: .anchor name :: rest => (some name, some (handle, suffix), rest)
  | .anchor name :: rest => (some name, none, rest)
  | .tag handle suffix :: rest => (none, some (handle, suffix), rest)
  | rest => (none, none, rest)

/-- A tag in full. `none` if its handle is not declared. -/
def resolveTag (handles : List (String × String)) (handle suffix : String) : Option String :=
  if handle.isEmpty then some suffix else (handles.lookup handle).map (· ++ suffix)

/-- Gives a name to a node. -/
def bind (name : Option String) (node : Node) (anchors : Anchors) : Anchors :=
  match name with
  | some name => (name, node) :: anchors
  | none => anchors

mutual

/-- A node. A list without an indentation of its own may stand only as a part of a table. -/
def parse (handles : List (String × String)) : Nat → Bool → Bool → Anchors → List Token → Parsed Node
  | 0, _, _, _, _ => none
  | fuel + 1, inBlock, inTable, anchors, tokens =>
    match tokens with
    | .alias name :: rest => (anchors.lookup name).map (·, anchors, rest)
    | _ =>
      let (name, tag, rest) := properties tokens
      match (match tag with
        | some (handle, suffix) => (resolveTag handles handle suffix).map some
        | none => some none : Option (Option String)) with
      | none => none
      | some tag =>
        let inner := bind name .cycle anchors
        let found : Parsed Node := match rest, inBlock, inTable with
          | .scalar style text :: rest, _, _ => some (.scalar style (tag.filter (· ≠ "!")) text, inner, rest)
          | .dash :: _, _, true => (parseLoose handles fuel inner rest).map fun (items, after) => (.list items, after)
          | .openList :: rest, _, _ =>
            (parseItems handles fuel true inner rest).map fun (items, after) => (.list items, after)
          | .openTable :: rest, _, _ =>
            (parseEntries handles fuel true inner rest).map fun (entries, after) => (.table entries, after)
          | .blockList :: rest, true, _ =>
            (parseBlockItems handles fuel inner rest).map fun (items, after) => (.list items, after)
          | .blockTable :: rest, true, _ =>
            (parseBlockEntries handles fuel inner rest).map fun (entries, after) => (.table entries, after)
          | _, _, _ => if name.isSome || tag.isSome then some (.scalar .plain tag "", inner, rest) else none
        found.map fun (node, anchors, rest) => (node, bind name node anchors, rest)

/-- A node, or nothing before one of some tokens. -/
def parseOptional (handles : List (String × String)) (stops : List Token) :
    Nat → Bool → Anchors → List Token → Parsed Node
  | 0, _, _, _ => none
  | fuel + 1, inTable, anchors, tokens =>
    if tokens.head?.any stops.contains then some (missing, anchors, tokens)
    else parse handles fuel (stops.contains .blockEnd) inTable anchors tokens

/-- The value behind a key, if there is one. -/
def parseValue (handles : List (String × String)) (stops : List Token) :
    Nat → Bool → Anchors → List Token → Parsed Node
  | 0, _, _, _ => none
  | fuel + 1, inTable, anchors, tokens =>
    match tokens with
    | .value :: rest => parseOptional handles stops fuel inTable anchors rest
    | _ => some (missing, anchors, tokens)

/-- The items of a block list. -/
def parseBlockItems (handles : List (String × String)) : Nat → Anchors → List Token → Parsed (List Node)
  | 0, _, _ => none
  | fuel + 1, anchors, tokens =>
    match tokens with
    | .blockEnd :: rest => some ([], anchors, rest)
    | .dash :: rest =>
      match parseOptional handles [.dash, .blockEnd] fuel false anchors rest with
      | none => none
      | some (item, anchors, rest) =>
        (parseBlockItems handles fuel anchors rest).map fun (items, after) => (item :: items, after)
    | _ => none

/-- The items of a list that is not indented. -/
def parseLoose (handles : List (String × String)) : Nat → Anchors → List Token → Parsed (List Node)
  | 0, _, _ => none
  | fuel + 1, anchors, tokens =>
    match tokens with
    | .dash :: rest =>
      match parseOptional handles [.dash, .key, .value, .blockEnd] fuel false anchors rest with
      | none => none
      | some (item, anchors, rest) =>
        (parseLoose handles fuel anchors rest).map fun (items, after) => (item :: items, after)
    | _ => some ([], anchors, tokens)

/-- The entries of a block table. -/
def parseBlockEntries (handles : List (String × String)) : Nat → Anchors → List Token → Parsed (List (Node × Node))
  | 0, _, _ => none
  | fuel + 1, anchors, tokens =>
    match tokens with
    | .blockEnd :: rest => some ([], anchors, rest)
    | .key :: rest =>
      match parseOptional handles [.key, .value, .blockEnd] fuel true anchors rest with
      | none => none
      | some (key, anchors, rest) =>
        match parseValue handles [.key, .value, .blockEnd] fuel true anchors rest with
        | none => none
        | some (value, anchors, rest) =>
          (parseBlockEntries handles fuel anchors rest).map fun (entries, after) => ((key, value) :: entries, after)
    | _ => none

/-- The items of a list in brackets; all but the first have a comma before them. An item with a key is a table of
one entry. A key that is left out there takes the token behind it along. -/
def parseItems (handles : List (String × String)) : Nat → Bool → Anchors → List Token → Parsed (List Node)
  | 0, _, _, _ => none
  | fuel + 1, first, anchors, tokens =>
    match (if first then some tokens else match tokens with
      | .closeList :: _ => some tokens
      | .comma :: rest => some rest
      | _ => none : Option (List Token)) with
    | none => none
    | some (.closeList :: rest) => some ([], anchors, rest)
    | some (.key :: rest) =>
      let key : Parsed Node :=
        if rest.head?.any [Token.value, .comma, .closeList].contains then some (missing, anchors, rest.drop 1)
        else parse handles fuel false false anchors rest
      match key with
      | none => none
      | some (key, anchors, rest) =>
        match parseValue handles [.comma, .closeList] fuel false anchors rest with
        | none => none
        | some (value, anchors, rest) =>
          (parseItems handles fuel false anchors rest).map fun (items, after) =>
            (.table [(key, value)] :: items, after)
    | some rest =>
      match parse handles fuel false false anchors rest with
      | none => none
      | some (item, anchors, rest) =>
        (parseItems handles fuel false anchors rest).map fun (items, after) => (item :: items, after)

/-- The entries of a table in braces; all but the first have a comma before them. An entry may be a key alone. -/
def parseEntries (handles : List (String × String)) : Nat → Bool → Anchors → List Token → Parsed (List (Node × Node))
  | 0, _, _, _ => none
  | fuel + 1, first, anchors, tokens =>
    match (if first then some tokens else match tokens with
      | .closeTable :: _ => some tokens
      | .comma :: rest => some rest
      | _ => none : Option (List Token)) with
    | none => none
    | some (.closeTable :: rest) => some ([], anchors, rest)
    | some (.key :: rest) =>
      match parseOptional handles [.value, .comma, .closeTable] fuel false anchors rest with
      | none => none
      | some (key, anchors, rest) =>
        match parseValue handles [.comma, .closeTable] fuel false anchors rest with
        | none => none
        | some (value, anchors, rest) =>
          (parseEntries handles fuel false anchors rest).map fun (entries, after) => ((key, value) :: entries, after)
    | some rest =>
      match parse handles fuel false false anchors rest with
      | none => none
      | some (key, anchors, rest) =>
        (parseEntries handles fuel false anchors rest).map fun (entries, after) => ((key, missing) :: entries, after)

end

/-! ## Documents -/

/-- What handles stand for unless a text says otherwise. -/
def commonHandles : List (String × String) := [("!", "!"), ("!!", "tag:yaml.org,2002:")]

/-- The directives before a document: whether there was a version, and the handles. A version is given once, and so
is each handle. -/
def directives? : Bool → List (String × String) → List Token → Option (List (String × String) × List Token)
  | versioned, handles, .version major minor :: rest =>
    if versioned || major ≠ 1 || (minor ≠ 1 && minor ≠ 2) then none else directives? true handles rest
  | versioned, handles, .handle name stands :: rest =>
    if (handles.lookup name).isSome then none else directives? versioned ((name, stands) :: handles) rest
  | _, handles, rest => some (handles, rest)

/-- Whether a token stands before or behind a document. -/
def isOuter : Token → Bool
  | .version .. | .handle .. | .documentStart | .documentEnd => true
  | _ => false

/-- The node of a document that may be left out. -/
def parseDocument (handles : List (String × String)) (tokens : List Token) : Parsed Node :=
  if tokens.head?.all isOuter then some (missing, [], tokens)
  else parse (handles ++ commonHandles) (4 * tokens.length + 4) true false [] tokens

/-- The node of the tokens of a text, if there is a document. -/
def ofTokens? (tokens : List Token) : Option (Option Node) :=
  match tokens with
  | [] => some none
  | .documentEnd :: _ => none
  | _ => do
    let (handles, rest) ← directives? false [] tokens
    let body ← match rest with
      | .documentStart :: rest => some rest
      | _ => if tokens.head?.any isOuter then none else some rest
    let (node, _, rest) ← parseDocument handles body
    if (rest.dropWhile (· == .documentEnd)).isEmpty then some (some node) else none

end Node
end Yaml
end Chunkwise
