import Chunkwise.FileTree
import Chunkwise.Grammar
import Chunkwise.Json.Decode
import Chunkwise.Tree.Wire

/-!
# Files with their syntax trees

A list of files as JSON: each has a path and a text, or bytes, or is a directory; a text may come with its syntax
tree. Grammars that have seen these texts know their trees, and know nothing of other texts.
-/

namespace Chunkwise

/-- A text with its syntax tree. -/
structure KnownTree where
  language : Language
  content : Text
  tree : SyntaxTree

namespace KnownTree

/-- The tree of a text that nothing is known of: a node without a kind or children. -/
def unknown (content : Text) : SyntaxTree := ⟨.mk "" true ⟨0, Text.byteLen content⟩ {} [], false⟩

/-- The grammars that know some texts. -/
def parser (known : List KnownTree) : Parser := fun language content =>
  match known.find? fun k => k.language == language && k.content == content with
  | some k => k.tree
  | none => unknown content

/-- The tree that comes with a text, if one does. -/
def ofJson? (content : Text) (value : Json) : List KnownTree :=
  match SyntaxTree.ofJson? value with
  | some (language, tree) => [⟨language, content, tree⟩]
  | none => []

end KnownTree

/-- Files, and what is known of their texts. -/
structure Bundle where
  files : FileTree := FileTree.empty
  known : List KnownTree := []

namespace Bundle

/-- Adds a text with what is known of it. -/
def addText (b : Bundle) (path content : String) (tree : Json) : Bundle :=
  { files := b.files.write path (bytesOf content), known := b.known ++ KnownTree.ofJson? content.toList tree }

/-- Adds what a JSON object describes. -/
def add? (b : Bundle) (value : Json) : Option Bundle := do
  let fields ← value.fields?
  let path ← (← Json.field? fields "path").str?
  match Json.field? fields "content", Json.field? fields "bytes" with
  | some content, _ => some (b.addText path (← content.str?) ((Json.field? fields "tree").getD .null))
  | none, some bytes => do
    let bytes ← Json.list? Json.count? bytes
    some { b with files := b.files.write path (bytes.map UInt8.ofNat) }
  | none, none => some { b with files := b.files.makeDir path }

/-- The files of a JSON list. -/
def ofJson? (value : Json) : Option Bundle := do (← value.items?).foldlM add? {}

end Bundle
end Chunkwise
