import Chunkwise.Strategy
import Chunkwise.Symbol.Basic
import Chunkwise.Symbol.Vote
import Chunkwise.CutPlan
import Chunkwise.Chunk.Basic

/-!
# Outlines of program text

The outermost definitions of a program text divide it into units. A unit begins at the first line of a definition,
or above it: at the attachments over it, and at the comment lines that touch it or them. A unit that is not kept
whole can be cut between its members, then at the lines of its body, then at any line.

* `leadFrom_le`: climbing over attachments and comments never goes down.
* `unitStarts_lt`: units begin inside the text.
-/

namespace Chunkwise

/-- The top-level structure of a text. -/
structure Outline where
  text : Text
  lines : LineTable
  /-- All symbols, in reading order. -/
  symbols : List Symbol
  /-- The outermost symbols that are neither comments nor attachments, each with the kind it counts as. -/
  top : List (Symbol × SymbolKind)
  comments : List Symbol
  /-- The comments outside every outermost symbol. -/
  freeComments : List Symbol
  attachments : List Symbol

namespace Outline

/-- The kind that a symbol counts as: that of the first definition inside a wrapper, or of a value if there is
none. -/
def countedKind (code : List Symbol) (s : Symbol) : SymbolKind :=
  if s.kind = .wrapped then
    match code.find? fun inner => inner.kind != .wrapped && s.encloses inner with
    | some inner => inner.kind
    | none => .constant
  else s.kind

/-- The outline of a text with its symbols in reading order. -/
def ofSymbols (text : Text) (symbols : List Symbol) : Outline :=
  let code := symbols.filter (!·.kind.isLead)
  let top := Symbol.outermost code
  let comments := symbols.filter (·.kind.isDocumentation)
  { text
    lines := LineTable.ofText text
    symbols
    top := top.map fun s => (s, countedKind code s)
    comments
    freeComments := comments.filter fun c => !top.any (·.encloses c)
    attachments := symbols.filter (·.kind == .attachment) }

/-! ## Climbing over attachments and comments -/

/-- Whether there is nothing but blanks and attachments between two positions. -/
def clearBetween (o : Outline) (pos target : Nat) : Bool :=
  match o.text.slice? ⟨pos, target⟩ with
  | none => false
  | some rest =>
    let next := pos + Text.byteLen (rest.takeWhile isBlankChar)
    if next = target then true
    else
      match o.attachments.find? fun a => a.span.start == next && a.span.stop ≤ target with
      | none => false
      | some a =>
        if _h : next < a.span.stop ∧ a.span.stop ≤ target then o.clearBetween a.span.stop target else false
termination_by target - pos
decreasing_by omega

/-- Whether a symbol has nothing but blanks and attachments before it on its first line. -/
def startsLine (o : Outline) (s : Symbol) : Bool :=
  let start := o.lines.lineStart s.lineStart
  start ≤ s.span.start && o.clearBetween start s.span.start

/-- Whether the lines from one up to another, without that one, are blank. -/
def blankLines (o : Outline) (first limit : Nat) : Bool :=
  (List.range' first (limit - first)).all fun line => Text.isBlank (o.lines.lineText line)

/-- The order of symbols by last line, then by first line. -/
def lineLe (a b : Symbol) : Bool := a.lineEnd < b.lineEnd || (a.lineEnd == b.lineEnd && a.lineStart ≤ b.lineStart)

/-- What a definition may stand under: attachments, and comments if they are to be kept with it. -/
def leads (o : Outline) (strategy : Strategy) (comments : List Symbol) : List Symbol :=
  (o.attachments ++ if strategy.includeDocstrings then comments else []).mergeSort lineLe

/-- Whether a lead belongs to the line below it: it ends right above, or only blank lines follow an attachment. -/
def touches (o : Outline) (lead : Symbol) (line : Nat) : Bool :=
  lead.lineEnd + 1 == line || (lead.kind == .attachment && o.blankLines (lead.lineEnd + 1) line)

/-- The line that a climb from a line reaches over leads below a floor. -/
def leadFrom (o : Outline) (leads : List Symbol) (floor line : Nat) : Nat :=
  match (leads.filter (·.lineEnd < line)).getLast? with
  | none => line
  | some lead =>
    if _h : lead.lineStart < line then
      if o.touches lead line && floor < lead.lineStart && o.startsLine lead then
        o.leadFrom leads floor lead.lineStart
      else line
    else line
termination_by line

/-- Climbing never goes down. -/
theorem leadFrom_le (o : Outline) (leads : List Symbol) (floor line : Nat) : o.leadFrom leads floor line ≤ line := by
  induction line using Nat.strongRecOn with
  | _ line ih =>
    rw [leadFrom]
    split
    · exact Nat.le_refl _
    · split
      · split
        · rename_i h _
          exact Nat.le_trans (ih _ h) (Nat.le_of_lt h)
        · exact Nat.le_refl _
      · exact Nat.le_refl _

/-! ## Units -/

/-- The line where the unit of each outermost symbol begins; none for one that does not start a line of its own
below those before it. -/
def topLines (o : Outline) (strategy : Strategy) (above : Nat) : List (Symbol × SymbolKind) → List (Option Nat)
  | [] => []
  | (s, _) :: rest =>
    (if above < s.lineStart && o.startsLine s then
        some (o.leadFrom (o.leads strategy o.freeComments) above s.lineStart)
      else none) :: o.topLines strategy (max above s.lineEnd) rest

/-- Whether a line lies in the lead of an outermost symbol. -/
def inLead (top : List (Symbol × SymbolKind)) (topLines : List (Option Nat)) (line : Nat) : Bool :=
  (top.zip topLines).any fun t =>
    match t.2 with
    | some first => first ≤ line && line < t.1.1.lineStart
    | none => false

/-- The lines of the comments that begin a unit of their own. -/
def commentLines (o : Outline) (topLines : List (Option Nat)) : List Nat :=
  (o.freeComments.filter fun c => !inLead o.top topLines c.lineStart && o.startsLine c).map (·.lineStart)

/-- Whether a unit may begin at a line, if the imports at the top stay with the first definition below them. -/
def apartFromImports (o : Outline) (topLines : List (Option Nat)) (line : Nat) : Bool :=
  match o.top, o.top.dropWhile (·.2 == .importing) with
  | (first, .importing) :: _, (definition, _) :: _ =>
    line ≤ (topLines.head?.join).getD first.lineStart || definition.lineStart < line
  | _, _ => true

/-- The lines where units begin. -/
def unitLines (o : Outline) (strategy : Strategy) : List Nat :=
  let topLines := o.topLines strategy 0 o.top
  let lines := topLines.filterMap id ++ o.commentLines topLines
  Ascending.ofList (if strategy.includeImports then lines.filter (o.apartFromImports topLines) else lines)

/-- The positions where units begin behind the first one. -/
def unitStarts (o : Outline) (strategy : Strategy) : List Nat :=
  ((o.unitLines strategy).map o.lines.lineStart).filter fun pos => 0 < pos && pos < o.text.byteLen

/-- The spans between successive positions, from one position on up to another. -/
def spansBetween (start stop : Nat) : List Nat → List Span
  | [] => [⟨start, stop⟩]
  | pos :: rest => ⟨start, pos⟩ :: spansBetween pos stop rest

/-- The units of a text. -/
def units (o : Outline) (strategy : Strategy) : List Span := spansBetween 0 o.text.byteLen (o.unitStarts strategy)

/-- Units begin inside the text. -/
theorem unitStarts_lt {o : Outline} {strategy : Strategy} {pos : Nat} (h : pos ∈ o.unitStarts strategy) :
    0 < pos ∧ pos < o.text.byteLen := by
  simp only [unitStarts, List.mem_filter, Bool.and_eq_true, decide_eq_true_eq] at h
  exact h.2

/-! ## Cuts inside units -/

/-- The outermost symbols that begin in a unit. -/
def topIn (o : Outline) (unit : Span) : List (Symbol × SymbolKind) := o.top.filter fun t => unit.covers t.1.span.start

/-- Whether a unit is kept whole: one with a container as containers are, one with a function as functions are. -/
def keepsWhole (o : Outline) (strategy : Strategy) (unit : Span) : Bool :=
  if (o.topIn unit).any (·.2.isContainer) then strategy.preserveClasses
  else (o.topIn unit).any (·.2.isCallable) && strategy.preserveMethods

/-- The members of the definitions in a unit that start a line. -/
def membersIn (o : Outline) (unit : Span) : List Symbol :=
  (Symbol.outermost (o.symbols.filter fun s => unit.covers s.span.start && s.depth == 1 && !s.kind.isLead)).filter
    o.startsLine

/-- Where a member begins with its lead. -/
def memberStart (o : Outline) (strategy : Strategy) (unit : Span) (member : Symbol) : Nat :=
  o.lines.lineStart
    (o.leadFrom (o.leads strategy o.comments) (o.lines.lineOf unit.start) member.lineStart)

/-- The cuts of a member: where it begins, and none inside a function that is to be kept whole. -/
def addMember (o : Outline) (strategy : Strategy) (unit : Span) (plan : CutPlan) (member : Symbol) : CutPlan :=
  let start := o.memberStart strategy unit member
  let plan := if unit.start < start then plan.mark 1 start else plan
  if strategy.preserveMethods && member.kind.isCallable then
    plan.keepWhole ⟨max start unit.start, min (o.lines.lineEnd member.lineEnd) unit.stop⟩
  else plan

/-- The largest symbol, the last one of equally large ones. -/
def largest : List Symbol → Option Symbol
  | [] => none
  | s :: rest =>
    match largest rest with
    | none => some s
    | some t => if t.size < s.size then some s else some t

/-- The lines from one to another that are not blank and begin inside a unit, each with its indentation. -/
def bodyLines (o : Outline) (unit : Span) (first last : Nat) : List (Nat × Nat) :=
  ((List.range' first (last + 1 - first)).filter fun line =>
    let start := o.lines.lineStart line
    !Text.isBlank (o.lines.lineText line) && unit.start < start && start < unit.stop).map fun line =>
      (o.lines.lineStart line, Text.indentation (o.lines.lineText line))

/-- The positions of the body lines with the least indentation: of those deeper than the first line of the largest
definition, or of all lines in a unit without one. -/
def statementStarts (o : Outline) (unit : Span) : List Nat :=
  let (body, deeper) : List (Nat × Nat) × List (Nat × Nat) :=
    match largest ((o.topIn unit).map (·.1)) with
    | some s =>
      let body := o.bodyLines unit (s.lineStart + 1) s.lineEnd
      (body, body.filter fun l => Text.indentation (o.lines.lineText s.lineStart) < l.2)
    | none =>
      let body := o.bodyLines unit (o.lines.lineOf unit.start) (o.lines.lineOf (unit.stop - 1))
      (body, body)
  match (deeper.map (·.2)).min? with
  | none => []
  | some least => (body.filter (·.2 == least)).map (·.1)

/-- The cuts inside a unit. -/
def addUnit (o : Outline) (strategy : Strategy) (plan : CutPlan) (unit : Span) : CutPlan :=
  if o.keepsWhole strategy unit then plan.keepWhole unit
  else
    let plan := (o.membersIn unit).foldl (o.addMember strategy unit) plan
    if strategy.respectIndentation then plan.markAll 2 (o.statementStarts unit) else plan

/-- The cuts of a text: between units, inside them, and last at any line. -/
def plan (o : Outline) (strategy : Strategy) : CutPlan :=
  ((o.units strategy).foldl (o.addUnit strategy) (CutPlan.markAll {} 0 (o.unitStarts strategy))).markAll 3
    o.lines.interior

/-- What the symbols of a text say of a slice of it. -/
def label (o : Outline) (span : Span) : Label :=
  { type := Vote.dominantKind (o.top.map fun t => (t.2, t.1.overlap span))
    symbols := Symbol.namesIn o.symbols span
    documented := o.comments.any fun c => span.covers c.span.start }

end Outline
end Chunkwise
