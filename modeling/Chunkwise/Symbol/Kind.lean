/-!
# Kinds of symbols and of chunks

A symbol is a point of interest of a source text; its kind has a name and a rank that breaks ties. A chunk takes
the kind of the symbols that dominate it, or is `mixed`, or `fallback` where no syntax was looked at.

* `SymbolKind.ofName?_name`, `ChunkType.ofName?_name`: a kind is found by its name.
* `SymbolKind.mem_all`: the list of kinds is complete.
-/

namespace Chunkwise

/-- The kind of a point of interest. -/
inductive SymbolKind where
  | importing
  | classDef
  | structDef
  | enumDef
  | interfaceDef
  | implBlock
  | moduleDef
  | function
  | method
  /-- A definition behind decorators or an export. -/
  | wrapped
  | typeAlias
  | constant
  | macroDef
  /-- A comment or a documentation string. -/
  | comment
  /-- An attachment above the item it belongs to. -/
  | attachment
  /-- A heading and the text under it. -/
  | heading
  | codeBlock
deriving DecidableEq, Repr

namespace SymbolKind

/-- Every kind, in declaration order. -/
def all : List SymbolKind :=
  [importing, classDef, structDef, enumDef, interfaceDef, implBlock, moduleDef, function, method, wrapped,
    typeAlias, constant, macroDef, comment, attachment, heading, codeBlock]

/-- The name of a kind. -/
def name : SymbolKind → String
  | importing => "import"
  | classDef => "class"
  | structDef => "struct"
  | enumDef => "enum"
  | interfaceDef => "interface"
  | implBlock => "impl"
  | moduleDef => "module"
  | function => "function"
  | method => "method"
  | wrapped => "decorated"
  | typeAlias => "type_alias"
  | constant => "constant"
  | macroDef => "macro"
  | comment => "comment"
  | attachment => "attribute"
  | heading => "section"
  | codeBlock => "code_block"

/-- The kind of a name. -/
def ofName? (name : String) : Option SymbolKind := all.find? (·.name == name)

/-- Rank by which equal shares of a chunk are told apart. -/
def rank : SymbolKind → Nat
  | classDef | structDef | interfaceDef | enumDef | implBlock | moduleDef => 3
  | function | method | wrapped => 2
  | importing => 1
  | _ => 0

/-- Whether a kind is a container whose functions are methods. -/
def isContainer : SymbolKind → Bool
  | classDef | structDef | enumDef | interfaceDef | implBlock | moduleDef => true
  | _ => false

/-- Whether a kind can be called. -/
def isCallable : SymbolKind → Bool
  | function | method | wrapped | macroDef => true
  | _ => false

/-- Whether a kind documents. -/
def isDocumentation : SymbolKind → Bool
  | comment => true
  | _ => false

/-- Whether a kind leads an item without being one. -/
def isLead : SymbolKind → Bool
  | comment | attachment => true
  | _ => false

/-- The place of a kind in declaration order. -/
def index (kind : SymbolKind) : Nat := all.idxOf kind

/-- The list of kinds is complete. -/
theorem mem_all (kind : SymbolKind) : kind ∈ all := by cases kind <;> decide

/-- A kind is found by its name. -/
theorem ofName?_name (kind : SymbolKind) : ofName? kind.name = some kind := by cases kind <;> decide

end SymbolKind

/-- The label of a chunk. -/
inductive ChunkType where
  /-- Symbols of one kind take at least half of what symbols take. -/
  | of (kind : SymbolKind)
  /-- No kind does. -/
  | mixed
  /-- No syntax was looked at. -/
  | fallback
deriving DecidableEq, Repr

namespace ChunkType

/-- The name of a label. -/
def name : ChunkType → String
  | of kind => kind.name
  | mixed => "mixed"
  | fallback => "fallback"

/-- The label of a name. -/
def ofName? (name : String) : Option ChunkType :=
  if name == "mixed" then some mixed
  else if name == "fallback" then some fallback
  else (SymbolKind.ofName? name).map of

/-- A label is found by its name. -/
theorem ofName?_name (type : ChunkType) : ofName? type.name = some type := by
  cases type with
  | of kind => cases kind <;> decide
  | mixed => rfl
  | fallback => rfl

end ChunkType
end Chunkwise
