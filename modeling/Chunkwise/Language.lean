import Chunkwise.Path
import Chunkwise.Symbol.Kind
import Chunkwise.Text.Blank

/-!
# Languages

The languages with a grammar: their names, the file extensions that stand for them, and the kinds of syntax nodes
that matter in each of them.

* `ofName?_name`: a language is found by its name.
* `ofNormalExtension?_of_mem`: every extension in the table stands for its language.
* `nodup_allExtensions`: no extension stands twice in the table.
-/

namespace Chunkwise

/-- A language with a known grammar. -/
inductive Language where
  | python
  | javascript
  | typescript
  | tsx
  | rust
  | go
  | java
  | cSharp
  | markdown
deriving DecidableEq, Repr

namespace Language

/-- Every language, in declaration order. -/
def all : List Language := [python, javascript, typescript, tsx, rust, go, java, cSharp, markdown]

/-- The name of a language. -/
def name : Language → String
  | python => "python"
  | javascript => "javascript"
  | typescript => "typescript"
  | tsx => "tsx"
  | rust => "rust"
  | go => "go"
  | java => "java"
  | cSharp => "c_sharp"
  | markdown => "markdown"

/-- The language of a name. -/
def ofName? (name : String) : Option Language := all.find? (·.name == name)

/-- Every known extension with its language. -/
def extensionTable : List (String × Language) :=
  [("py", python), ("pyw", python), ("js", javascript), ("jsx", javascript), ("mjs", javascript),
   ("cjs", javascript), ("ts", typescript), ("tsx", tsx), ("rs", rust), ("go", go), ("java", java), ("cs", cSharp),
   ("md", markdown), ("markdown", markdown)]

/-- The known extensions. -/
def allExtensions : List String := extensionTable.map (·.1)

/-- The language of an extension in its normal form. -/
def ofNormalExtension? (ext : String) : Option Language := (extensionTable.find? (·.1 == ext)).map (·.2)

/-- The language of an extension, in any case and with or without leading dots. -/
def ofExtension? (ext : String) : Option Language := ofNormalExtension? (lowered (Path.dropDots ext))

/-- The language that the extension of a path stands for. -/
def ofPath? (path : String) : Option Language := (Path.rawExtension? path).bind ofExtension?

/-- The language meant by a name or an extension, in any case and with blanks around it. -/
def parse? (s : String) : Option Language :=
  let wanted := lowered (trimmed s)
  (ofName? wanted).or (ofExtension? wanted)

/-- The extensions of a language. -/
def extensions (language : Language) : List String := (extensionTable.filter (·.2 == language)).map (·.1)

/-- Whether a language marks up prose. -/
def isMarkup : Language → Bool
  | markdown => true
  | _ => false

/-- The languages of program text. -/
def codeLanguages : List Language := all.filter (!·.isMarkup)

/-! ## Node kinds -/

/-- Node kinds of interest in python. -/
def pythonNodes : List (String × SymbolKind) :=
  [("import_statement", .importing),
   ("import_from_statement", .importing),
   ("future_import_statement", .importing),
   ("class_definition", .classDef),
   ("function_definition", .function),
   ("decorated_definition", .wrapped)]

/-- Node kinds of interest in javascript. -/
def javascriptNodes : List (String × SymbolKind) :=
  [("import_statement", .importing),
   ("export_statement", .wrapped),
   ("class_declaration", .classDef),
   ("function_declaration", .function),
   ("generator_function_declaration", .function),
   ("method_definition", .method)]

/-- Node kinds of interest in typescript. -/
def typescriptNodes : List (String × SymbolKind) :=
  [("import_statement", .importing),
   ("export_statement", .wrapped),
   ("class_declaration", .classDef),
   ("abstract_class_declaration", .classDef),
   ("function_declaration", .function),
   ("generator_function_declaration", .function),
   ("method_definition", .method),
   ("interface_declaration", .interfaceDef),
   ("enum_declaration", .enumDef),
   ("type_alias_declaration", .typeAlias),
   ("internal_module", .moduleDef)]

/-- Node kinds of interest in rust. -/
def rustNodes : List (String × SymbolKind) :=
  [("use_declaration", .importing),
   ("extern_crate_declaration", .importing),
   ("struct_item", .structDef),
   ("enum_item", .enumDef),
   ("union_item", .structDef),
   ("trait_item", .interfaceDef),
   ("impl_item", .implBlock),
   ("mod_item", .moduleDef),
   ("function_item", .function),
   ("type_item", .typeAlias),
   ("const_item", .constant),
   ("static_item", .constant),
   ("macro_definition", .macroDef)]

/-- Node kinds of interest in go. -/
def goNodes : List (String × SymbolKind) :=
  [("import_declaration", .importing),
   ("function_declaration", .function),
   ("method_declaration", .method),
   ("type_declaration", .structDef),
   ("const_declaration", .constant),
   ("var_declaration", .constant)]

/-- Node kinds of interest in java. -/
def javaNodes : List (String × SymbolKind) :=
  [("import_declaration", .importing),
   ("class_declaration", .classDef),
   ("record_declaration", .classDef),
   ("interface_declaration", .interfaceDef),
   ("annotation_type_declaration", .interfaceDef),
   ("enum_declaration", .enumDef),
   ("method_declaration", .method),
   ("constructor_declaration", .method)]

/-- Node kinds of interest in C sharp. -/
def cSharpNodes : List (String × SymbolKind) :=
  [("using_directive", .importing),
   ("namespace_declaration", .moduleDef),
   ("file_scoped_namespace_declaration", .moduleDef),
   ("class_declaration", .classDef),
   ("record_declaration", .classDef),
   ("struct_declaration", .structDef),
   ("interface_declaration", .interfaceDef),
   ("enum_declaration", .enumDef),
   ("method_declaration", .method),
   ("constructor_declaration", .method)]

/-- Node kinds of interest in markdown. -/
def markdownNodes : List (String × SymbolKind) :=
  [("section", .heading),
   ("fenced_code_block", .codeBlock)]

/-- The node kinds of interest with the kind of symbol each one gives. -/
def nodeKinds : Language → List (String × SymbolKind)
  | python => pythonNodes
  | javascript => javascriptNodes
  | typescript | tsx => typescriptNodes
  | rust => rustNodes
  | go => goNodes
  | java => javaNodes
  | cSharp => cSharpNodes
  | markdown => markdownNodes

/-- The kind of symbol that a node kind gives. -/
def symbolKind? (language : Language) (nodeKind : String) : Option SymbolKind :=
  (language.nodeKinds.find? (·.1 == nodeKind)).map (·.2)

/-- The node kinds of comments. -/
def commentKinds : Language → List String
  | rust | java => ["line_comment", "block_comment"]
  | markdown => []
  | _ => ["comment"]

/-- The node kinds of attachments that stand beside the item they belong to. -/
def attachmentKinds : Language → List String
  | rust => ["attribute_item"]
  | javascript | typescript | tsx => ["decorator"]
  | _ => []

/-- The node kinds that can name a symbol. -/
def nameKinds : Language → List String
  | markdown => ["inline"]
  | _ => ["identifier", "type_identifier", "name", "field_identifier", "property_identifier", "constant",
      "dotted_name", "scoped_identifier"]

/-- Whether nodes of a kind are comments. -/
def isComment (language : Language) (nodeKind : String) : Bool := language.commentKinds.contains nodeKind

/-- Whether nodes of a kind are attachments. -/
def isAttachment (language : Language) (nodeKind : String) : Bool := language.attachmentKinds.contains nodeKind

/-! ## The tables are consistent -/

/-- The list of languages is complete. -/
theorem mem_all (language : Language) : language ∈ all := by cases language <;> decide

/-- A language is found by its name. -/
theorem ofName?_name (language : Language) : ofName? language.name = some language := by
  cases language <;> decide

/-- No extension stands twice in the table. -/
theorem nodup_allExtensions : allExtensions.Nodup := by decide

/-- Every extension in the table stands for its language. -/
theorem ofNormalExtension?_of_mem :
    ∀ entry ∈ extensionTable, ofNormalExtension? entry.1 = some entry.2 := by decide

end Language
end Chunkwise
