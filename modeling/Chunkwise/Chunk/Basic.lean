import Chunkwise.Document
import Chunkwise.Symbol.Kind
import Chunkwise.Text.Line
import Chunkwise.Window

/-!
# Chunks

A chunk is one window of a document with all that is known of it: its place by bytes and by lines, its size, the
symbols it touches and the label they give it.

* `length_assembleFrom`: every window gives one chunk.
-/

namespace Chunkwise

/-- What the symbols of a text say of one slice of it. -/
structure Label where
  type : ChunkType
  symbols : List String
  /-- Whether a comment begins in the slice. -/
  documented : Bool

/-- What is known of a chunk. -/
structure ChunkMetadata where
  document : Metadata
  /-- Place among the chunks of the document, from 0. -/
  chunkIndex : Nat
  totalChunks : Nat
  /-- Number of characters. -/
  chunkSize : Nat
  chunkType : ChunkType
  language : String
  symbols : List String
  containsDocumentation : Bool
  chunker : String
  oversized : Bool
  truncated : Bool
  startLine : Nat
  endLine : Nat
  startByte : Nat
  endByte : Nat
  estimatedTokens : Nat

/-- A slice of a document. -/
structure Chunk where
  content : Text
  metadata : ChunkMetadata

/-- Tokens are estimated at four bytes each, and as one at least. -/
def estimateTokens (content : Text) : Nat := max (content.byteLen / 4) 1

namespace Chunk

/-- Number of lines that a chunk touches. -/
def lineCount (c : Chunk) : Nat := c.metadata.endLine - c.metadata.startLine + 1

/-- Whether a chunk touches a line. -/
def containsLine (c : Chunk) (line : Nat) : Bool := c.metadata.startLine ≤ line && line ≤ c.metadata.endLine

/-- The chunk of a window of a document. -/
def ofWindow? (document : Document) (lines : LineTable) (language chunker : String) (label : Span → Label)
    (index total : Nat) (window : Window) : Option Chunk :=
  (document.content.slice? window.span).map fun content =>
    let about := label window.span
    { content
      metadata :=
        { document := document.metadata
          chunkIndex := index
          totalChunks := total
          chunkSize := content.length
          chunkType := about.type
          language
          symbols := about.symbols
          containsDocumentation := about.documented
          chunker
          oversized := window.oversized
          truncated := false
          startLine := lines.lineOf window.span.start
          endLine := lines.lineOf (max (window.span.stop - 1) window.span.start)
          startByte := window.span.start
          endByte := window.span.stop
          estimatedTokens := estimateTokens content } }

/-- The chunks of windows, counted on from an index. -/
def assembleFrom (document : Document) (lines : LineTable) (language chunker : String) (label : Span → Label)
    (index total : Nat) : List Window → Option (List Chunk)
  | [] => some []
  | window :: rest =>
    match ofWindow? document lines language chunker label index total window,
        assembleFrom document lines language chunker label (index + 1) total rest with
    | some chunk, some chunks => some (chunk :: chunks)
    | _, _ => none

/-- The chunks of the windows of a document; `none` if a window is no slice of it. -/
def assemble (document : Document) (language chunker : String) (label : Span → Label) (windows : List Window) :
    Option (List Chunk) :=
  assembleFrom document (LineTable.ofText document.content) language chunker label 0 windows.length windows

/-- Every window gives one chunk. -/
theorem length_assembleFrom {document : Document} {lines : LineTable} {language chunker : String}
    {label : Span → Label} {index total : Nat} {windows : List Window} {chunks : List Chunk}
    (h : assembleFrom document lines language chunker label index total windows = some chunks) :
    chunks.length = windows.length := by
  induction windows generalizing index chunks with
  | nil => simp only [assembleFrom, Option.some.injEq] at h; subst h; rfl
  | cons window rest ih =>
    rw [assembleFrom] at h
    split at h
    · rename_i hr
      cases h
      simp [ih hr]
    · cases h

end Chunk
end Chunkwise
