import Chunkwise.Proofs.Text.Tiling
import Chunkwise.Proofs.Tree.Symbols

/-!
# Rows of nodes and lines of symbols

A symbol gets its lines from the rows and columns of its node, without a table of lines. The last row of a node that is
not empty is that of its last byte: a newline there stands on the row above that of the end, and any other byte on the row
of the end (`Node.lastRow_eq`). So the lines of the symbol are those that the table gives its first and its last byte
(`symbols_know_their_lines`).
-/

namespace Chunkwise

variable {language : Language} {text : Text} {node : Node} {s : Symbol}

/-- Whether the lines of a symbol are those that the table of lines gives its first and its last byte, in order and with
all of the symbol between the start of the first and the end of the last. -/
structure Symbol.LinedUp (text : Text) (s : Symbol) : Prop where
  lineStart_eq : s.lineStart = (LineTable.ofText text).lineOf s.span.start
  lineEnd_eq : s.lineEnd = (LineTable.ofText text).lineOf (s.span.stop - 1)
  line_le : s.lineStart ≤ s.lineEnd
  lineStart_le : (LineTable.ofText text).lineStart s.lineStart ≤ s.span.start
  le_lineEnd : s.span.stop ≤ (LineTable.ofText text).lineEnd s.lineEnd

/-- **The last row of a node is that of its last byte**, whether or not this is a newline. -/
theorem Node.lastRow_eq (hlt : node.span.start < node.span.stop) (hstop : node.span.stop ≤ text.byteLen) :
    node.lastRow text = text.rowAt (node.span.stop - 1) := by
  obtain ⟨last, hlast⟩ := Nat.exists_eq_add_one_of_ne_zero (show node.span.stop ≠ 0 by omega)
  have hlength : last < text.bytes.length := by
    rw [Text.length_bytes]
    omega
  have hbyte : text.bytes[last]? = some text.bytes[last] := List.getElem?_eq_getElem hlength
  have hrow := Text.rowAt_succ hbyte
  have hcolumn := Text.columnAt_succ hbyte
  have hfirst : text.rowAt node.span.start ≤ text.rowAt last := Text.rowAt_le_rowAt text (by omega)
  rw [← hlast] at hrow hcolumn
  rw [show node.span.stop - 1 = last by omega]
  simp only [lastRow]
  -- Behind a newline the end is in column 0, on a row below that of the start; behind any other byte it is in no column 0.
  by_cases hnewline : text.bytes[last] = Text.newlineByte
  · rw [if_pos hnewline] at hrow hcolumn
    rw [if_pos (by simp only [hcolumn, hrow, beq_self_eq_true, Bool.true_and, decide_eq_true_eq]; omega), hrow,
      Nat.add_sub_cancel]
  · rw [if_neg hnewline] at hrow hcolumn
    rw [if_neg (by simp [hcolumn]), hrow, Nat.add_zero]

/-- A symbol with the rows of its first and its last byte has the lines of the table. -/
theorem Symbol.linedUp_of_rows (hlt : s.span.start < s.span.stop) (hstop : s.span.stop ≤ text.byteLen)
    (hfirst : s.lineStart = text.rowAt s.span.start + 1) (hlast : s.lineEnd = text.rowAt (s.span.stop - 1) + 1) :
    s.LinedUp text := by
  have hstart : s.lineStart = (LineTable.ofText text).lineOf s.span.start := by
    rw [hfirst, LineTable.lineOf_eq (by omega)]
  have hend : s.lineEnd = (LineTable.ofText text).lineOf (s.span.stop - 1) := by
    rw [hlast, LineTable.lineOf_eq (by omega)]
  refine ⟨hstart, hend, ?_, ?_, ?_⟩
  · rw [hfirst, hlast]
    exact Nat.add_le_add_right (Text.rowAt_le_rowAt text (by omega)) 1
  · rw [hstart]
    exact LineTable.lineStart_lineOf_le text _
  · have hholds := LineTable.lt_lineEnd_lineOf (show s.span.stop - 1 < text.byteLen by omega)
    rw [← hend] at hholds
    omega

/-- A symbol that a node makes has the lines of the table if the node is not empty and ends in the text. -/
theorem Node.Makes.linedUp (h : node.Makes language text s) (hlt : s.span.start < s.span.stop)
    (hstop : s.span.stop ≤ text.byteLen) : s.LinedUp text := by
  refine Symbol.linedUp_of_rows hlt hstop (by rw [h.lineStart_eq, h.span_eq]) ?_
  rw [h.span_eq] at hlt hstop ⊢
  rw [h.lineEnd_eq, node.lastRow_eq hlt hstop]

/-- **The rows of nodes agree with the table of lines.** Rows count newlines and columns the bytes behind the last one. The
symbol of a node that is not empty has the lines that the table gives its first and its last byte, and so has every such
symbol of a tree. -/
theorem symbols_know_their_lines (text : Text) :
    (∀ pos, text.rowAt pos = (text.bytes.take pos).count Text.newlineByte ∧
      text.columnAt pos = Text.sinceNewline (text.bytes.take pos)) ∧
    (∀ (node : Node) (kind : SymbolKind) (name : Option String) (depth : Nat) (scope : Option Scope),
      node.span.start < node.span.stop → node.span.stop ≤ text.byteLen →
        (node.toSymbol text kind name depth scope).LinedUp text) ∧
    ∀ (language : Language) (tree : SyntaxTree), ∀ s ∈ tree.symbols language text,
      s.span.start < s.span.stop → s.span.stop ≤ text.byteLen → s.LinedUp text := by
  refine ⟨fun pos => ⟨text.rowAt_eq_count pos, text.columnAt_eq_sinceNewline pos⟩, ?_, ?_⟩
  · intro node kind name depth scope hlt hstop
    exact Symbol.linedUp_of_rows hlt hstop rfl (congrArg (· + 1) (node.lastRow_eq hlt hstop))
  · intro language tree s hs hlt hstop
    obtain ⟨node, -, hmakes⟩ := SyntaxTree.exists_node_of_mem_symbols hs
    exact hmakes.linedUp hlt hstop

/-- Two lines, the first with a character of two bytes, and a third one below them. -/
def threeLines : Text := ['é', '\n', 'b', '\n', 'c']

/-- A node that takes in the newline of the second line. -/
def twoLineNode : Node := .mk "fn" true ⟨0, 5⟩ {} []

/-- The node ends in column 0 of the third row, and its symbol on the second line. -/
theorem symbols_know_their_lines_newline :
    (twoLineNode.span.start < twoLineNode.span.stop ∧ twoLineNode.span.stop ≤ threeLines.byteLen) ∧
      threeLines.rowAt 5 = 2 ∧ threeLines.columnAt 5 = 0 ∧
      (twoLineNode.toSymbol threeLines .function none 0 none).LinedUp threeLines ∧
      (twoLineNode.toSymbol threeLines .function none 0 none).lineEnd = 2 ∧
      (LineTable.ofText threeLines).lineOf 4 = 2 := by
  have hlt : twoLineNode.span.start < twoLineNode.span.stop := by decide
  have hstop : twoLineNode.span.stop ≤ threeLines.byteLen := by decide
  exact ⟨⟨hlt, hstop⟩, by decide, by decide,
    (symbols_know_their_lines threeLines).2.1 twoLineNode .function none 0 none hlt hstop, by decide, by decide⟩

end Chunkwise
