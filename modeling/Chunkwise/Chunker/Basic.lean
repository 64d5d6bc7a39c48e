import Chunkwise.Chunk.Basic
import Chunkwise.Failure
import Chunkwise.Language
import Chunkwise.Strategy

/-!
# Chunkers

A way to cut the documents of some extensions. A window that is no slice of its document is a breakdown of the
chunker (`cutWith_eq_ok` says when there is none).
-/

namespace Chunkwise

/-- A way to cut documents. -/
structure Chunker where
  name : String
  /-- The extensions it claims, in normal form. -/
  extensions : List String
  /-- The language whose grammar it needs, if it needs one. -/
  language : Option Language
  chunk : Document → Strategy → Except Failure (List Chunk)

namespace Chunker

/-- The chunks that a table of cuts makes of a document. -/
def cutWith (table : CutTable) (document : Document) (size overlap : Nat) (language chunker : String)
    (label : Span → Label) : Except Failure (List Chunk) :=
  match (table.windows document.content (Budget.ofSizes size overlap)).bind
      (Chunk.assemble document language chunker label) with
  | some chunks => .ok chunks
  | none => .error (.breakdown none)

/-- Cutting succeeds if every window is a slice of the document. -/
theorem cutWith_eq_ok {table : CutTable} {document : Document} {size overlap : Nat} {language chunker : String}
    {label : Span → Label} {windows : List Window} {chunks : List Chunk}
    (hw : table.windows document.content (Budget.ofSizes size overlap) = some windows)
    (hc : Chunk.assemble document language chunker label windows = some chunks) :
    cutWith table document size overlap language chunker label = .ok chunks := by
  simp [cutWith, hw, hc]

end Chunker
end Chunkwise
