import Chunkwise.Text.Blank

/-!
# Lines

A line is what stands between two newlines, with the newline that ends it; a newline at the very end of a text
opens no further line. Lines are counted from 1, positions are byte offsets.

* `flatten_pieces`: the pieces of a text make it up.
* `startsFrom_pos`: every start after the first line lies behind the offset the text begins at.
-/

namespace Chunkwise
namespace Text

/-- The lines of a text, each with its newline. -/
def pieces : Text → List Text
  | [] => []
  | c :: cs =>
    if c = '\n' then [c] :: pieces cs
    else match pieces cs with
      | [] => [[c]]
      | p :: ps => (c :: p) :: ps

/-- The starts of the lines after the first, in a text that begins at an offset. -/
def startsFrom : Nat → Text → List Nat
  | _, [] => []
  | pos, c :: cs =>
    if c = '\n' && !cs.isEmpty then (pos + c.utf8Size) :: startsFrom (pos + c.utf8Size) cs
    else startsFrom (pos + c.utf8Size) cs

/-- Each line of a text with the offset it starts at, in a text that begins at an offset. -/
def locate : Nat → List Text → List (Nat × Text)
  | _, [] => []
  | pos, p :: ps => (pos, p) :: locate (pos + byteLen p) ps

/-- The lines of a text with their offsets. -/
def locatedLines (text : Text) : List (Nat × Text) := locate 0 (pieces text)

/-- Number of newlines before an offset. -/
def rowAt : Text → Nat → Nat
  | [], _ => 0
  | c :: cs, n => if n = 0 then 0 else (if c = '\n' then 1 else 0) + rowAt cs (n - c.utf8Size)

/-- Number of bytes between an offset and the newline before it, for a text whose start has a column. -/
def columnFrom : Nat → Text → Nat → Nat
  | col, [], _ => col
  | col, c :: cs, n =>
    if n = 0 then col
    else if c = '\n' then columnFrom 0 cs (n - c.utf8Size)
    else columnFrom (col + min n c.utf8Size) cs (n - c.utf8Size)

/-- Number of bytes between an offset and the newline before it, or the start of the text. -/
def columnAt (text : Text) (pos : Nat) : Nat := columnFrom 0 text pos

/-- Number of leading blanks and tabs. -/
def indentation (text : Text) : Nat := (text.takeWhile isGap).length

/-- The lines of a text make it up. -/
theorem flatten_pieces (s : Text) : (pieces s).flatten = s := by
  induction s with
  | nil => rfl
  | cons c s ih =>
    rw [pieces]
    split
    · simp [ih]
    · split <;> rename_i h <;> rw [h] at ih
      · simp [← ih]
      · simp [← ih]

/-- Every start found lies behind the offset the text begins at. -/
theorem startsFrom_pos {s : Text} {pos n : Nat} (h : n ∈ startsFrom pos s) : pos < n := by
  induction s generalizing pos with
  | nil => cases h
  | cons c s ih =>
    have hc := c.utf8Size_pos
    rw [startsFrom] at h
    split at h
    · rcases List.mem_cons.1 h with rfl | h
      · omega
      · exact Nat.lt_trans (by omega) (ih h)
    · exact Nat.lt_trans (by omega) (ih h)

end Text

/-- The lines of a text, by number. -/
structure LineTable where
  /-- The starts of the lines after the first. -/
  interior : List Nat
  /-- Number of bytes of the text. -/
  size : Nat
  /-- The lines themselves. -/
  pieces : List Text

namespace LineTable

/-- The table of a text. -/
def ofText (text : Text) : LineTable := ⟨Text.startsFrom 0 text, Text.byteLen text, Text.pieces text⟩

/-- The starts of all lines. -/
def starts (t : LineTable) : List Nat := 0 :: t.interior

/-- Where a line starts; the end of the text for a number that no line has. -/
def lineStart (t : LineTable) : Nat → Nat
  | 0 => t.size
  | i + 1 => t.starts[i]?.getD t.size

/-- Where a line ends, behind its newline; the end of the text behind the last line. -/
def lineEnd (t : LineTable) (line : Nat) : Nat := t.starts[line]?.getD t.size

/-- The number of the line that holds an offset; the last line holds what lies behind the text. -/
def lineOf (t : LineTable) (pos : Nat) : Nat := t.starts.countP (· ≤ pos)

/-- A line by its number; empty for a number that no line has. -/
def lineText (t : LineTable) : Nat → Text
  | 0 => []
  | i + 1 => t.pieces[i]?.getD []

/-- Every offset is on some line. -/
theorem lineOf_pos (t : LineTable) (pos : Nat) : 0 < t.lineOf pos := by
  simp [lineOf, starts]

/-- The first line starts the text. -/
@[simp] theorem lineStart_one (t : LineTable) : t.lineStart 1 = 0 := rfl

/-- A line ends where the next one starts. -/
theorem lineEnd_eq_lineStart_succ (t : LineTable) (line : Nat) : t.lineEnd line = t.lineStart (line + 1) := rfl

end LineTable
end Chunkwise
