import Chunkwise.Ascending
import Chunkwise.Text.Basic

/-!
# Cut plans

Where a text may be cut. A plan collects marks (positions with a level, 0 the most structural) and spans to keep
whole, in any order. Its table has the marks of each level ascending and none of them strictly inside a span to
keep, the spans merged where they overlap, and two kinds of marks more: the end of the text at level 0, and the
edges of the merged spans at a last level of their own.

* `mem_table_level`: which positions a level of the table holds.
* `pairwise_table_level`: a level is strictly ascending.
-/

namespace Chunkwise

/-- Marks by level, and spans that no cut may fall into. -/
structure CutPlan where
  /-- Pairs of a level and a position. -/
  marks : List (Nat × Nat) := []
  /-- Spans to keep whole. -/
  solid : List Span := []

/-- The marks of a plan in order, with the spans to keep merged. -/
structure CutTable where
  /-- The positions of each level. -/
  levels : List (List Nat)
  /-- Disjoint spans to keep whole, ascending. -/
  solid : List Span

namespace CutPlan

/-- Adds a position at a level. -/
def mark (plan : CutPlan) (level pos : Nat) : CutPlan := { plan with marks := (level, pos) :: plan.marks }

/-- Adds positions at a level. -/
def markAll (plan : CutPlan) (level : Nat) (positions : List Nat) : CutPlan :=
  { plan with marks := positions.map (level, ·) ++ plan.marks }

/-- Adds a span to keep whole; an empty span asks nothing. -/
def keepWhole (plan : CutPlan) (span : Span) : CutPlan :=
  if span.start < span.stop then { plan with solid := span :: plan.solid } else plan

/-- Both plans at once. -/
def union (a b : CutPlan) : CutPlan := ⟨a.marks ++ b.marks, a.solid ++ b.solid⟩

/-- The order of spans by start, then by end. -/
def spanLe (a b : Span) : Bool := a.start < b.start || (a.start == b.start && a.stop ≤ b.stop)

/-- Joins to a span those of the following ones that begin inside it, and so on behind it. -/
def mergeFrom (current : Span) : List Span → List Span
  | [] => [current]
  | span :: rest =>
    if span.start < current.stop then mergeFrom ⟨current.start, max current.stop span.stop⟩ rest
    else current :: mergeFrom span rest

/-- Joins overlapping spans of a list that is in order. -/
def merge : List Span → List Span
  | [] => []
  | span :: rest => mergeFrom span rest

/-- The spans to keep whole, in order, joined where they overlap. -/
def mergedSolid (plan : CutPlan) : List Span := merge (plan.solid.mergeSort spanLe)

/-- Whether a position is strictly inside one of the spans. -/
def inside (solid : List Span) (pos : Nat) : Bool := solid.any fun s => s.start < pos && pos < s.stop

/-- Whether a text of some length may be cut at a position. -/
def allowed (solid : List Span) (size pos : Nat) : Bool := 0 < pos && pos ≤ size && !inside solid pos

/-- The positions marked at a level, the end of the text among those of level 0. -/
def markedAt (plan : CutPlan) (size level : Nat) : List Nat :=
  (((0, size) :: plan.marks).filter (·.1 == level)).map (·.2)

/-- Number of levels that hold a mark or stand below one that does. -/
def depth (plan : CutPlan) : Nat := plan.marks.foldl (fun n m => max n (m.1 + 1)) 1

/-- The table of a plan for a text of some length. -/
def table (plan : CutPlan) (size : Nat) : CutTable :=
  let solid := plan.mergedSolid
  let level (positions : List Nat) := Ascending.ofList (positions.filter (allowed solid size))
  let edges := solid.flatMap fun s => [s.start, s.stop]
  ⟨(List.range plan.depth).map (fun k => level (plan.markedAt size k)) ++ if edges.isEmpty then [] else [level edges],
    solid⟩

/-- A level of the table holds the allowed positions marked at it. -/
theorem mem_table_level {plan : CutPlan} {size k pos : Nat} {level : List Nat} (hk : k < plan.depth)
    (h : (plan.table size).levels[k]? = some level) :
    pos ∈ level ↔ pos ∈ plan.markedAt size k ∧ allowed plan.mergedSolid size pos := by
  rw [table, List.getElem?_append_left (by simpa using hk)] at h
  simp only [List.getElem?_map, List.getElem?_range hk, Option.map_some, Option.some.injEq] at h
  subst h
  simp

/-- Every level of the table is strictly ascending. -/
theorem pairwise_table_level {plan : CutPlan} {size : Nat} {level : List Nat}
    (h : level ∈ (plan.table size).levels) : level.Pairwise (· < ·) := by
  simp only [table, List.mem_append, List.mem_map] at h
  rcases h with ⟨k, -, rfl⟩ | h
  · exact Ascending.pairwise_ofList _
  · split at h
    · cases h
    · rw [List.mem_singleton] at h
      subst h
      exact Ascending.pairwise_ofList _

end CutPlan
end Chunkwise
