import Chunkwise.Text.Blank
import Chunkwise.Text.Line

/-!
# Fenced blocks

A fence is a line with at most three leading blanks and then at least three backquotes or three tildes. It opens a
block that ends with the next fence of the same character, at least as long, that has only blanks behind it, or
with the text.

* `three_le_run`: a fence has three characters or more.
-/

namespace Chunkwise

/-- A fence: its character, and how often it stands there. -/
structure Fence where
  marker : Char
  run : Nat
deriving DecidableEq, Repr

namespace Fence

/-- A line without its leading blanks. -/
def dropIndent (line : Text) : Text := line.dropWhile (· == ' ')

/-- Number of leading blanks. -/
def indent (line : Text) : Nat := (line.takeWhile (· == ' ')).length

/-- How often a character stands in front of a text. -/
def runLength (c : Char) (text : Text) : Nat := (text.takeWhile (· == c)).length

/-- The fence that a line is. -/
def ofLine? (line : Text) : Option Fence :=
  match dropIndent line with
  | [] => none
  | c :: rest =>
    if indent line ≤ 3 && (c.toNat == 96 || c == '~') && 3 ≤ runLength c (c :: rest) then
      some ⟨c, runLength c (c :: rest)⟩
    else none

/-- Whether a line closes a block that a fence has opened. -/
def closes (fence : Fence) (line : Text) : Bool :=
  match ofLine? line with
  | none => false
  | some found =>
    found.marker == fence.marker && fence.run ≤ found.run && Text.isBlank ((dropIndent line).drop found.run)

/-- The blocks of lines with their offsets; `opened` is the fence that stands open and where it began. -/
def blocksFrom (size : Nat) : Option (Nat × Fence) → List (Nat × Text) → List Span
  | none, [] => []
  | some (start, _), [] => [⟨start, size⟩]
  | none, (pos, line) :: rest =>
    match ofLine? line with
    | some fence => blocksFrom size (some (pos, fence)) rest
    | none => blocksFrom size none rest
  | some (start, fence), (pos, line) :: rest =>
    if fence.closes line then ⟨start, pos + line.byteLen⟩ :: blocksFrom size none rest
    else blocksFrom size (some (start, fence)) rest

/-- The fenced blocks of a text, as whole lines. -/
def blocks (text : Text) : List Span := blocksFrom text.byteLen none text.locatedLines

/-- A fence has three characters or more. -/
theorem three_le_run {line : Text} {fence : Fence} (h : ofLine? line = some fence) : 3 ≤ fence.run := by
  rw [ofLine?] at h
  split at h
  · cases h
  · split at h
    · rename_i hc
      cases h
      simp only [Bool.and_eq_true, decide_eq_true_eq] at hc
      exact hc.2
    · cases h

end Fence
end Chunkwise
