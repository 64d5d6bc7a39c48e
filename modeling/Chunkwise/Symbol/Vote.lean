import Chunkwise.Symbol.Kind
import Chunkwise.Total

/-!
# The dominant kind

Symbols vote for their kind with a weight. The kind with the greatest total wins, of equal totals the one of
higher rank, of equal ranks the one declared first; it labels the chunk if it has at least half of all weight.

* `total_append`, `weightOf_append`: votes add up.
-/

namespace Chunkwise
namespace Vote

/-- All weight of a list of votes. -/
def total (votes : List (SymbolKind × Nat)) : Nat := totalOf (·.2) votes

/-- The weight that a list of votes gives to a kind. -/
def weightOf (votes : List (SymbolKind × Nat)) (kind : SymbolKind) : Nat := total (votes.filter (·.1 == kind))

/-- Whether a kind beats another one: by weight, then by rank. -/
def beats (votes : List (SymbolKind × Nat)) (a b : SymbolKind) : Bool :=
  weightOf votes b < weightOf votes a || (weightOf votes a == weightOf votes b && b.rank < a.rank)

/-- The first kind of a list that none of the others beats. -/
def best (votes : List (SymbolKind × Nat)) : SymbolKind :=
  SymbolKind.all.foldl (fun best kind => if beats votes kind best then kind else best) .importing

/-- The kind that has at least half of the weight, if one has. -/
def dominantKind (votes : List (SymbolKind × Nat)) : ChunkType :=
  if 0 < total votes && total votes ≤ weightOf votes (best votes) * 2 then .of (best votes) else .mixed

/-- Weights of concatenated votes add up. -/
theorem total_append (a b : List (SymbolKind × Nat)) : total (a ++ b) = total a + total b :=
  totalOf_append _ a b

/-- The weights of a kind in concatenated votes add up. -/
theorem weightOf_append (a b : List (SymbolKind × Nat)) (kind : SymbolKind) :
    weightOf (a ++ b) kind = weightOf a kind + weightOf b kind := by
  rw [weightOf, List.filter_append, total_append, ← weightOf, ← weightOf]

end Vote
end Chunkwise
