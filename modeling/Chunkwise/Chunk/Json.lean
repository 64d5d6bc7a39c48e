import Chunkwise.Chunk.Basic

/-!
# Chunks as JSON

A chunk is an object with its content and its metadata; the metadata hold the entries of the document beside those
of the chunk, and an entry of the chunk is written over an entry of the document with the same name. Reading takes
the entries of the chunk by name and leaves the others to the document (`engineFields_names`).
-/

namespace Chunkwise
namespace ChunkMetadata

/-- The entries of the chunk itself, in the order they are written. -/
def engineFields (m : ChunkMetadata) : List (String × Json) :=
  [("chunk_index", .count m.chunkIndex),
   ("total_chunks", .count m.totalChunks),
   ("chunk_size", .count m.chunkSize),
   ("chunk_type", .str m.chunkType.name),
   ("language", .str m.language),
   ("symbols", .strings m.symbols),
   ("contains_documentation", .bool m.containsDocumentation),
   ("chunker", .str m.chunker),
   ("oversized", .bool m.oversized),
   ("truncated", .bool m.truncated),
   ("start_line", .count m.startLine),
   ("end_line", .count m.endLine),
   ("start_byte", .count m.startByte),
   ("end_byte", .count m.endByte),
   ("estimated_tokens", .count m.estimatedTokens)]

/-- The names of the entries that a chunk writes itself. -/
def engineNames : List String :=
  ["chunk_index", "total_chunks", "chunk_size", "chunk_type", "language", "symbols", "contains_documentation",
   "chunker", "oversized", "truncated", "start_line", "end_line", "start_byte", "end_byte", "estimated_tokens"]

/-- The entries of the chunk have these names. -/
theorem engineFields_names (m : ChunkMetadata) : m.engineFields.map (·.1) = engineNames := rfl

/-- The metadata written as an object. -/
def toJson (m : ChunkMetadata) : Json := .obj (Json.ofFields (m.document.toFields ++ m.engineFields))

/-- The metadata of an object. -/
def ofFields? (fields : List (String × Json)) : Option ChunkMetadata := do
  let count (name : String) := (Json.field? fields name).bind Json.count?
  let bool (name : String) := (Json.field? fields name).bind Json.bool?
  let str (name : String) := (Json.field? fields name).bind Json.str?
  let document ← Metadata.ofFields? (fields.filter fun f => !engineNames.contains f.1)
  some
    { document
      chunkIndex := ← count "chunk_index"
      totalChunks := ← count "total_chunks"
      chunkSize := ← count "chunk_size"
      chunkType := ← (Json.field? fields "chunk_type").bind (Json.name? ChunkType.ofName?)
      language := ← str "language"
      symbols := ← Json.withDefault? (Json.list? Json.str?) [] (Json.field? fields "symbols")
      containsDocumentation := ← bool "contains_documentation"
      chunker := ← str "chunker"
      oversized := ← Json.withDefault? Json.bool? false (Json.field? fields "oversized")
      truncated := ← Json.withDefault? Json.bool? false (Json.field? fields "truncated")
      startLine := ← count "start_line"
      endLine := ← count "end_line"
      startByte := ← Json.withDefault? Json.count? 0 (Json.field? fields "start_byte")
      endByte := ← Json.withDefault? Json.count? 0 (Json.field? fields "end_byte")
      estimatedTokens := ← count "estimated_tokens" }

end ChunkMetadata

namespace Chunk

/-- A chunk written as an object. -/
def toJson (c : Chunk) : Json :=
  .obj [("content", .str (String.ofList c.content)), ("metadata", c.metadata.toJson)]

/-- The chunk of a content and metadata. -/
def ofParts? (content metadata : Json) : Option Chunk := do
  let content ← content.str?
  let fields ← metadata.fields?
  some ⟨content.toList, ← ChunkMetadata.ofFields? fields⟩

/-- The chunk of an object, or of a list of the two parts. -/
def ofJson? : Json → Option Chunk
  | .obj fields =>
    match Json.field? fields "content", Json.field? fields "metadata" with
    | some content, some metadata => ofParts? content metadata
    | _, _ => none
  | .arr [content, metadata] => ofParts? content metadata
  | _ => none

end Chunk
end Chunkwise
