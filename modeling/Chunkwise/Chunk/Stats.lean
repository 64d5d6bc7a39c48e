import Chunkwise.Chunk.Basic
import Chunkwise.Total

/-!
# Statistics of chunks

Totals, mean and range of the token estimates of some chunks. `lineTotal_append` and `tokenTotal_append` say that
totals of batches add up.
-/

namespace Chunkwise

/-- Figures about some chunks. -/
structure ChunkStats where
  totalChunks : Nat
  totalLines : Nat
  totalTokens : Nat
  averageTokens : Nat
  minTokens : Nat
  maxTokens : Nat
  oversizedChunks : Nat
  fallbackChunks : Nat
deriving DecidableEq, Repr

namespace ChunkStats

/-- All lines touched, a line once for each chunk that touches it. -/
def lineTotal (chunks : List Chunk) : Nat := totalOf (·.lineCount) chunks

/-- All estimated tokens. -/
def tokenTotal (chunks : List Chunk) : Nat := totalOf (·.metadata.estimatedTokens) chunks

/-- The figures of some chunks; without chunks all of them are zero. -/
def ofChunks (chunks : List Chunk) : ChunkStats :=
  let tokens := chunks.map (·.metadata.estimatedTokens)
  { totalChunks := chunks.length
    totalLines := lineTotal chunks
    totalTokens := tokenTotal chunks
    averageTokens := tokenTotal chunks / chunks.length
    minTokens := tokens.min?.getD 0
    maxTokens := tokens.max?.getD 0
    oversizedChunks := chunks.countP (·.metadata.oversized)
    fallbackChunks := chunks.countP (·.metadata.chunkType == .fallback) }

/-- The figures on one line. -/
def summary (s : ChunkStats) : String :=
  s!"Chunks: {s.totalChunks} | Lines: {s.totalLines} | Tokens: {s.totalTokens} | Avg: {s.averageTokens} | " ++
  s!"Range: {s.minTokens}-{s.maxTokens} | Oversized: {s.oversizedChunks} | Fallback: {s.fallbackChunks}"

/-- The lines of two batches add up. -/
theorem lineTotal_append (a b : List Chunk) : lineTotal (a ++ b) = lineTotal a + lineTotal b :=
  totalOf_append _ a b

/-- The tokens of two batches add up. -/
theorem tokenTotal_append (a b : List Chunk) : tokenTotal (a ++ b) = tokenTotal a + tokenTotal b :=
  totalOf_append _ a b

end ChunkStats
end Chunkwise
