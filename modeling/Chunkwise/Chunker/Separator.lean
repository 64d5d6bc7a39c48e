import Chunkwise.CutPlan
import Chunkwise.Text.Blank
import Chunkwise.Text.Digit
import Chunkwise.Text.Line

/-!
# Separators

What divides a text that no grammar has looked at: headings, rules, list items, paragraphs, lines and words. Each
function gives the positions where its separator allows a cut: before a line of some form, or behind a run of
characters.

* `exists_line_of_mem_linesThat`: a cut before lines is a cut at the start of a line.
-/

namespace Chunkwise
namespace Separator

/-- Whether a line has a gap in front, and perhaps more behind it. -/
def startsWithGap : Text → Bool
  | c :: _ => isGap c
  | [] => false

/-- What follows up to three leading blanks. -/
def dropThree : Text → Text
  | ' ' :: ' ' :: ' ' :: rest => rest
  | ' ' :: ' ' :: rest => rest
  | ' ' :: rest => rest
  | rest => rest

/-- A line without its newline. -/
def body (line : Text) : Text := line.takeWhile (· != '\n')

/-- The starts of the lines that satisfy a test. -/
def linesThat (p : Text → Bool) (text : Text) : List Nat := (text.locatedLines.filter fun l => p l.2).map (·.1)

/-! ## Lines of a form -/

/-- Whether a line is a heading of some level: that many number signs and a gap, after at most three blanks. -/
def isHeading (level : Nat) (line : Text) : Bool :=
  let rest := dropThree line
  (rest.takeWhile (· == '#')).length == level && startsWithGap (rest.drop level)

/-- Whether a line is a rule: three or more of one of three marks, gaps between them, after at most three blanks. -/
def isRule (line : Text) : Bool :=
  match dropThree (body line) with
  | [] => false
  | c :: rest =>
    (c == '*' || c == '-' || c == '_') && (c :: rest).all (fun x => x == c || isGap x)
      && 3 ≤ (c :: rest).count c

/-- Whether a line is an item of a list: a bullet, or up to nine digits and a point or bracket, and then a gap. -/
def isListItem (line : Text) : Bool :=
  match line.dropWhile isGap with
  | [] => false
  | c :: rest =>
    if c == '-' || c == '*' || c == '+' then startsWithGap rest
    else
      let digits := (c :: rest).takeWhile isDecimalDigit
      match (c :: rest).drop digits.length with
      | mark :: after =>
        1 ≤ digits.length && digits.length ≤ 9 && (mark == '.' || mark == ')') && startsWithGap after
      | [] => false

/-- Whether a line begins with one to six number signs, one gap and something. -/
def isPlainHeading (line : Text) : Bool :=
  let marks := (line.takeWhile (· == '#')).length
  1 ≤ marks && marks ≤ 6 &&
    match line.drop marks with
    | gap :: c :: _ => isGap gap && !isBlankChar c
    | _ => false

/-! ## Runs of characters -/

/-- The positions behind the newlines of a text that begins at an offset. -/
def afterNewlines : Nat → Text → List Nat
  | _, [] => []
  | pos, c :: cs =>
    if c = '\n' then (pos + c.utf8Size) :: afterNewlines (pos + c.utf8Size) cs
    else afterNewlines (pos + c.utf8Size) cs

/-- The positions behind the gaps of a text that begins at an offset; `inGap` tells whether one stands before it. -/
def afterGaps (inGap : Bool) : Nat → Text → List Nat
  | pos, [] => if inGap then [pos] else []
  | pos, c :: cs =>
    if isGap c then afterGaps true (pos + c.utf8Size) cs
    else (if inGap then [pos] else []) ++ afterGaps false (pos + c.utf8Size) cs

/-- The positions behind two newlines with nothing but gaps between them. Each newline belongs to one pair at most;
`opened` tells whether one stands before the text with nothing but gaps behind it. -/
def afterParagraphs (opened : Bool) : Nat → Text → List Nat
  | _, [] => []
  | pos, c :: cs =>
    if c = '\n' then
      if opened then (pos + c.utf8Size) :: afterParagraphs false (pos + c.utf8Size) cs
      else afterParagraphs true (pos + c.utf8Size) cs
    else afterParagraphs (opened && isGap c) (pos + c.utf8Size) cs

/-! ## Levels -/

/-- Number of heading levels. -/
def headingLevels : Nat := 6

/-- The level where the separators of marked-up prose begin that are finer than headings. -/
def proseLevel : Nat := 7

/-- Paragraphs, lines and words, from a level on. -/
def addCommon (text : Text) (level : Nat) (plan : CutPlan) : CutPlan :=
  ((plan.markAll level (afterParagraphs false 0 text)).markAll (level + 1) (afterNewlines 0 text)).markAll
    (level + 2) (afterGaps false 0 text)

/-- The separators of marked-up prose that are finer than headings. -/
def addProse (text : Text) (plan : CutPlan) : CutPlan :=
  addCommon text (proseLevel + 2)
    ((plan.markAll proseLevel (linesThat isRule text)).markAll (proseLevel + 1) (linesThat isListItem text))

/-- The headings, a level for each of theirs. -/
def addHeadings (text : Text) (plan : CutPlan) : CutPlan :=
  (List.range headingLevels).foldl (fun plan k => plan.markAll k (linesThat (isHeading (k + 1)) text)) plan

/-- A cut before lines is a cut at the start of one. -/
theorem exists_line_of_mem_linesThat {p : Text → Bool} {text : Text} {pos : Nat} (h : pos ∈ linesThat p text) :
    ∃ line, (pos, line) ∈ text.locatedLines ∧ p line := by
  simp only [linesThat, List.mem_map, List.mem_filter] at h
  obtain ⟨⟨q, line⟩, ⟨hm, hp⟩, rfl⟩ := h
  exact ⟨line, hm, hp⟩

end Separator
end Chunkwise
