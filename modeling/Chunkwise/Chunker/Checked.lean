import Chunkwise.Chunker.Outline

/-!
# Outlines, step by step

The plan of an outline as it is made, with nothing taken for granted: every line is sliced out of the text, and every
climb and every walk along a line has to move on. A step gives `none` where a slice would begin or end at no position
of the text, or where its loop would never end.
-/

namespace Chunkwise
namespace Outline

/-- A line by its number, sliced out of the text. -/
def lineText? (o : Outline) (line : Nat) : Option Text := o.text.slice? ⟨o.lines.lineStart line, o.lines.lineEnd line⟩

/-- The indentation of a line, read from its start on. -/
def indentationOf? (o : Outline) (line : Nat) : Option Nat :=
  (o.text.dropBytes? (o.lines.lineStart line)).map Text.indentation

/-! ## Climbing -/

/-- Whether there is nothing but blanks and attachments between two positions. -/
def clearBetween? (o : Outline) (pos target : Nat) : Option Bool :=
  match o.text.slice? ⟨pos, target⟩ with
  | none => none
  | some rest =>
    let next := pos + Text.byteLen (rest.takeWhile isBlankChar)
    if next = target then some true
    else
      match o.attachments.find? fun a => a.span.start == next && a.span.stop ≤ target with
      | none => some false
      | some a =>
        -- An attachment without bytes would be found again and again.
        if _h : next < a.span.stop ∧ a.span.stop ≤ target then o.clearBetween? a.span.stop target else none
termination_by target - pos
decreasing_by omega

/-- Whether a symbol has nothing but blanks and attachments before it on its first line. -/
def startsLine? (o : Outline) (s : Symbol) : Option Bool :=
  if o.lines.lineStart s.lineStart ≤ s.span.start then o.clearBetween? (o.lines.lineStart s.lineStart) s.span.start
  else some false

/-- Whether the lines from one up to another, without that one, are blank. -/
def blankLines? (o : Outline) (first limit : Nat) : Option Bool :=
  (List.range' first (limit - first)).allM fun line => (o.lineText? line).map Text.isBlank

/-- Whether a lead belongs to the line below it. -/
def touches? (o : Outline) (lead : Symbol) (line : Nat) : Option Bool :=
  if lead.lineEnd + 1 = line then some true
  else if lead.kind = .attachment then o.blankLines? (lead.lineEnd + 1) line
  else some false

/-- Whether a climb from a line goes on from a lead. -/
def climbs? (o : Outline) (floor line : Nat) (lead : Symbol) : Option Bool :=
  match o.touches? lead line with
  | none => none
  | some touches => if touches && floor < lead.lineStart then o.startsLine? lead else some false

/-- The line that a climb from a line reaches over leads below a floor. -/
def leadFrom? (o : Outline) (leads : List Symbol) (floor line : Nat) : Option Nat :=
  match (leads.filter (·.lineEnd < line)).getLast? with
  | none => some line
  | some lead =>
    match o.climbs? floor line lead with
    | none => none
    | some false => some line
    | some true => if _h : lead.lineStart < line then o.leadFrom? leads floor lead.lineStart else none
termination_by line

/-! ## Units -/

/-- The line where the unit of an outermost symbol begins, if it starts a line of its own below those before it. -/
def topLine? (o : Outline) (strategy : Strategy) (above : Nat) (s : Symbol) : Option (Option Nat) :=
  if above < s.lineStart then
    (o.startsLine? s).bind fun starts =>
      if starts then (o.leadFrom? (o.leads strategy o.freeComments) above s.lineStart).map some else some none
  else some none

/-- The line where the unit of each outermost symbol begins. -/
def topLines? (o : Outline) (strategy : Strategy) (above : Nat) :
    List (Symbol × SymbolKind) → Option (List (Option Nat))
  | [] => some []
  | (s, _) :: rest => do
    let line ← o.topLine? strategy above s
    let lines ← o.topLines? strategy (max above s.lineEnd) rest
    return line :: lines

/-- The lines of the comments that begin a unit of their own. -/
def commentLines? (o : Outline) (topLines : List (Option Nat)) : Option (List Nat) :=
  ((o.freeComments.filter fun c => !inLead o.top topLines c.lineStart).filterM o.startsLine?).map
    (·.map (·.lineStart))

/-- The lines where units begin. -/
def unitLines? (o : Outline) (strategy : Strategy) : Option (List Nat) := do
  let topLines ← o.topLines? strategy 0 o.top
  let comments ← o.commentLines? topLines
  let lines := topLines.filterMap id ++ comments
  return Ascending.ofList (if strategy.includeImports then lines.filter (o.apartFromImports topLines) else lines)

/-- The positions where units begin behind the first one. -/
def unitStarts? (o : Outline) (strategy : Strategy) : Option (List Nat) :=
  (o.unitLines? strategy).map fun lines =>
    (lines.map o.lines.lineStart).filter fun pos => 0 < pos && pos < o.text.byteLen

/-! ## Cuts inside units -/

/-- The members of the definitions in a unit that start a line. -/
def membersIn? (o : Outline) (unit : Span) : Option (List Symbol) :=
  (Symbol.outermost (o.symbols.filter fun s => unit.covers s.span.start && s.depth == 1 && !s.kind.isLead)).filterM
    o.startsLine?

/-- Where a member begins with its lead. -/
def memberStart? (o : Outline) (strategy : Strategy) (unit : Span) (member : Symbol) : Option Nat :=
  (o.leadFrom? (o.leads strategy o.comments) (o.lines.lineOf unit.start) member.lineStart).map o.lines.lineStart

/-- The cuts of a member that begins at a position. -/
def addMemberAt (o : Outline) (strategy : Strategy) (unit : Span) (plan : CutPlan) (member : Symbol) (start : Nat) :
    CutPlan :=
  let plan := if unit.start < start then plan.mark 1 start else plan
  if strategy.preserveMethods && member.kind.isCallable then
    plan.keepWhole ⟨max start unit.start, min (o.lines.lineEnd member.lineEnd) unit.stop⟩
  else plan

/-- The cuts of a member. -/
def addMember? (o : Outline) (strategy : Strategy) (unit : Span) (plan : CutPlan) (member : Symbol) : Option CutPlan :=
  (o.memberStart? strategy unit member).map (o.addMemberAt strategy unit plan member)

/-- The lines from one to another that are not blank and begin inside a unit, each with its indentation. -/
def bodyLines? (o : Outline) (unit : Span) (first last : Nat) : Option (List (Nat × Nat)) :=
  ((List.range' first (last + 1 - first)).mapM fun line => (o.lineText? line).map (line, ·)).map fun lines =>
    (lines.filter fun l =>
      let start := o.lines.lineStart l.1
      !Text.isBlank l.2 && unit.start < start && start < unit.stop).map fun l =>
        (o.lines.lineStart l.1, Text.indentation l.2)

/-- The body lines of a unit, and those of them deeper than the first line of the largest definition. -/
def statements? (o : Outline) (unit : Span) : Option (List (Nat × Nat) × List (Nat × Nat)) :=
  match largest ((o.topIn unit).map (·.1)) with
  | some s => do
    let body ← o.bodyLines? unit (s.lineStart + 1) s.lineEnd
    let header ← o.indentationOf? s.lineStart
    return (body, body.filter fun l => header < l.2)
  | none => (o.bodyLines? unit (o.lines.lineOf unit.start) (o.lines.lineOf (unit.stop - 1))).map fun body => (body, body)

/-- The positions of the body lines with the least indentation. -/
def statementStarts? (o : Outline) (unit : Span) : Option (List Nat) :=
  (o.statements? unit).map fun (body, deeper) =>
    match (deeper.map (·.2)).min? with
    | none => []
    | some least => (body.filter (·.2 == least)).map (·.1)

/-- The cuts inside a unit. -/
def addUnit? (o : Outline) (strategy : Strategy) (plan : CutPlan) (unit : Span) : Option CutPlan :=
  if o.keepsWhole strategy unit then some (plan.keepWhole unit)
  else do
    let members ← o.membersIn? unit
    let plan ← members.foldlM (o.addMember? strategy unit) plan
    if strategy.respectIndentation then (o.statementStarts? unit).map (plan.markAll 2) else return plan

/-- The cuts of a text. -/
def plan? (o : Outline) (strategy : Strategy) : Option CutPlan := do
  let starts ← o.unitStarts? strategy
  let plan ← (spansBetween 0 o.text.byteLen starts).foldlM (o.addUnit? strategy) (CutPlan.markAll {} 0 starts)
  return plan.markAll 3 o.lines.interior

end Outline
end Chunkwise
