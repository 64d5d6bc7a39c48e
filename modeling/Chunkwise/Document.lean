import Chunkwise.Json.Decode
import Chunkwise.Named
import Chunkwise.Path
import Chunkwise.Text.Basic

/-!
# Documents

A text with its path, a hint at its type, and whatever else is known of it, which every chunk carries on.
-/

namespace Chunkwise

/-- What is known of a document. -/
structure Metadata where
  filePath : String
  /-- An extension, with or without a dot, for paths that have none. -/
  fileType : Option String := none
  /-- Further entries, in the order of their names. -/
  extra : Named Json := []

/-- A text to be cut. -/
structure Document where
  content : Text
  metadata : Metadata

namespace Metadata

/-- The entries of a document. -/
def toFields (m : Metadata) : List (String × Json) :=
  ("file_path", .str m.filePath) ::
    (match m.fileType with
      | none => []
      | some type => [("file_type", .str type)]) ++ m.extra

/-- The document of entries: a path, perhaps a hint, and all other entries. -/
def ofFields? (fields : List (String × Json)) : Option Metadata := do
  let filePath ← (← Json.field? fields "file_path").str?
  let fileType ← Json.optional? Json.str? (Json.field? fields "file_type")
  some ⟨filePath, fileType, Named.ofList (fields.filter fun f => f.1 != "file_path" && f.1 != "file_type")⟩

/-- The metadata written as an object. -/
def toJson (m : Metadata) : Json := .obj (Json.ofFields m.toFields)

/-- The metadata of an object. -/
def ofJson? (value : Json) : Option Metadata := value.fields?.bind ofFields?

end Metadata

namespace Document

/-- The extension a document goes by: that of its path, or else the hint at its type. -/
def extension? (d : Document) : Option String :=
  (Path.extension? d.metadata.filePath).or
    ((d.metadata.fileType.map fun type => lowered (Path.dropDots type)).filter (· != ""))

end Document
end Chunkwise
