import Chunkwise.CutPlan
import Chunkwise.Text.Blank

/-!
# Windows

Greedy division of a text into windows that fit a budget of characters. Each window is one slice of the text and
begins a set number of characters before the end of the one before it. A window ends at the farthest position of
the most structural level that has one in reach; the overlap is shortened where the next unit fits the budget but
not behind the full overlap. A span to keep whole is never cut, so it alone can make a window oversized.

* `Budget.maxChars_pos`: a budget admits at least one character.
-/

namespace Chunkwise

/-- How many characters a window may have, and how many of them it may share with the one before. -/
structure Budget where
  maxChars : Nat
  overlapChars : Nat
  overlap_lt : overlapChars < maxChars

namespace Budget

/-- The budget nearest to the sizes asked for. -/
def ofSizes (size overlap : Nat) : Budget :=
  ⟨max size 1, min overlap (max size 1 - 1), by omega⟩

/-- A budget admits at least one character. -/
theorem maxChars_pos (b : Budget) : 0 < b.maxChars := Nat.lt_of_le_of_lt (Nat.zero_le _) b.overlap_lt

end Budget

/-- One slice of a text, and whether it has more characters than the budget admits. -/
structure Window where
  span : Span
  oversized : Bool
deriving DecidableEq, Repr

namespace CutTable

/-- The positions of a level behind what is covered and not behind the reach. -/
def ahead (covered reach : Nat) (level : List Nat) : List Nat := level.filter fun pos => covered < pos && pos ≤ reach

/-- The positions in reach of the most structural level that has any. -/
def candidates (table : CutTable) (covered reach : Nat) : List Nat :=
  (table.levels.findSome? fun level =>
    match ahead covered reach level with
    | [] => none
    | found => some found).getD []

/-- The window that follows a text covered so far, if it begins at `start` or, with a shorter overlap, later. -/
def nextSpan (table : CutTable) (text : Text) (budget : Budget) (start covered : Nat) : Option Span :=
  match text.advance? start budget.maxChars, text.advance? covered budget.maxChars with
  | some limit, some reach =>
    match table.candidates covered reach with
    | first :: more =>
      match ((first :: more).filter (· ≤ limit)).getLast? with
      | some stop => some ⟨start, stop⟩
      | none => (text.retreat? first budget.maxChars).map fun back => ⟨max back start, first⟩
    | [] =>
      match table.solid.find? (·.covers covered) with
      | some span => some ⟨start, span.stop⟩
      | none =>
        if limit ≤ covered then (text.advance? covered 1).map fun stop => ⟨start, stop⟩ else some ⟨start, limit⟩
  | _, _ => none

/-- The windows that follow a text covered so far; blank ones are left out. `none` if a window would begin or
end at no position of the text, or cover nothing new. -/
def windowsFrom (table : CutTable) (text : Text) (budget : Budget) (start covered : Nat) : Option (List Window) :=
  if _hc : covered < text.byteLen then
    match table.nextSpan text budget start covered with
    | none => none
    | some span =>
      if _hs : covered < span.stop then
        match text.slice? span, text.retreat? span.stop budget.overlapChars with
        | some slice, some back =>
          (windowsFrom table text budget (max back span.start) span.stop).map fun rest =>
            if slice.isBlank then rest else ⟨span, budget.maxChars < slice.length⟩ :: rest
        | _, _ => none
      else none
  else some []
termination_by text.byteLen - covered
decreasing_by omega

/-- The windows of a text. -/
def windows (table : CutTable) (text : Text) (budget : Budget) : Option (List Window) :=
  table.windowsFrom text budget 0 0

end CutTable
end Chunkwise
