import Chunkwise.Chunker.Outline
import Chunkwise.Proofs.Text.Lines
import Chunkwise.Tree.Symbols

/-!
# Where symbols stand

The walk over a tree makes each symbol of a node, and gives it the bytes and the lines of that node
(`SyntaxTree.exists_node_of_mem_symbols`). The symbols of a well-formed tree therefore stand on positions of the text,
between the start of their first line and the end of their last (`SyntaxTree.WellFormed.located`), so that what they
cover is on one of their lines (`Symbol.Located.line_mem`), and its attachments are not empty
(`SyntaxTree.WellFormed.attachment_lt`).
-/

namespace Chunkwise

variable {language : Language} {text : Text} {depth : Nat} {scope : Option Scope} {s : Symbol}

/-- A symbol that stands on positions of a text, and in the lines between its first and its last. -/
structure Symbol.Located (text : Text) (s : Symbol) : Prop where
  start_le : s.span.start ≤ s.span.stop
  start_boundary : text.isBoundary s.span.start
  stop_boundary : text.isBoundary s.span.stop
  line_pos : 0 < s.lineStart
  line_le : s.lineStart ≤ s.lineEnd
  lineStart_le : (LineTable.ofText text).lineStart s.lineStart ≤ s.span.start
  le_lineEnd : s.span.stop ≤ (LineTable.ofText text).lineEnd s.lineEnd

/-- What a symbol covers is on one of its lines. -/
theorem Symbol.Located.line_mem {pos line : Nat} (h : s.Located text)
    (hpos : s.span.covers pos) (hstart : (LineTable.ofText text).lineStart line ≤ pos)
    (hend : pos < (LineTable.ofText text).lineEnd line) : s.lineStart ≤ line ∧ line ≤ s.lineEnd := by
  simp only [Span.covers_iff] at hpos
  constructor
  · refine Nat.le_of_not_lt fun hlt => ?_
    have hlines : (LineTable.ofText text).lineEnd line ≤ _ := LineTable.lineEnd_le_lineStart hlt
    have hle := h.lineStart_le
    omega
  · refine Nat.le_of_not_lt fun hlt => ?_
    have hlines : _ ≤ (LineTable.ofText text).lineStart line := LineTable.lineEnd_le_lineStart hlt
    have hle := h.le_lineEnd
    omega

namespace Node

/-- Whether a symbol has the bytes and the lines of a node; an attachment is made of a node of such a kind. -/
structure Makes (language : Language) (text : Text) (node : Node) (s : Symbol) : Prop where
  span_eq : s.span = node.span
  lineStart_eq : s.lineStart = text.rowAt node.span.start + 1
  lineEnd_eq : s.lineEnd = node.lastRow text + 1
  attached : s.kind = .attachment → language.isAttachment node.kind

theorem makes_toSymbol (text : Text) (node : Node) {kind : SymbolKind} (name : Option String) (depth : Nat)
    (scope : Option Scope) (hkind : kind = .attachment → language.isAttachment node.kind) :
    node.Makes language text (node.toSymbol text kind name depth scope) := ⟨rfl, rfl, rfl, hkind⟩

/-- No definition is an attachment. -/
theorem ne_attachment_of_symbolKind? {nodeKind : String} {kind : SymbolKind}
    (h : language.symbolKind? nodeKind = some kind) : kindIn scope kind ≠ .attachment := by
  have htable : ∀ entry ∈ language.nodeKinds, entry.2 ≠ .attachment := by cases language <;> decide
  obtain ⟨entry, hentry, rfl⟩ := Option.map_eq_some_iff.1 h
  rw [kindIn]
  split
  · decide
  · exact htable entry (List.mem_of_find?_eq_some hentry)

/-- The last row of a node is that of its end, or the one above if the node ends with a newline of its own. -/
theorem lastRow_cases (text : Text) (node : Node) : node.lastRow text = text.rowAt node.span.stop ∨
    (node.lastRow text + 1 = text.rowAt node.span.stop ∧ text.columnAt node.span.stop = 0 ∧
      text.rowAt node.span.start < text.rowAt node.span.stop) := by
  simp only [lastRow]
  split
  · rename_i h
    simp only [Bool.and_eq_true, beq_iff_eq, decide_eq_true_eq] at h
    exact Or.inr ⟨by omega, h⟩
  · exact Or.inl rfl

theorem rowAt_le_lastRow (node : Node) (h : node.span.start ≤ node.span.stop) :
    text.rowAt node.span.start ≤ node.lastRow text := by
  have hrow := Text.rowAt_le_rowAt text h
  rcases lastRow_cases text node with hlast | ⟨hlast, -, hlt⟩ <;> omega

theorem le_lineEnd_lastRow (node : Node) (h : text.isBoundary node.span.stop) :
    node.span.stop ≤ (LineTable.ofText text).lineEnd (node.lastRow text + 1) := by
  rcases lastRow_cases text node with hlast | ⟨hlast, hcolumn, -⟩
  · rw [hlast]
    exact LineTable.le_lineEnd_row h
  · refine Nat.le_of_eq ?_
    rw [hlast, LineTable.lineEnd_eq_lineStart_succ, LineTable.lineStart_row_of_column h hcolumn]

/-- A symbol of a node in its place is located. -/
theorem Makes.located {node : Node} (h : node.Makes language text s) (hplaced : node.Placed text) :
    s.Located text := by
  obtain ⟨hspan, hstart, hend, -⟩ := h
  refine ⟨?_, ?_, ?_, ?_, ?_, ?_, ?_⟩
  · rw [hspan]
    exact hplaced.start_le
  · rw [hspan]
    exact hplaced.start_boundary
  · rw [hspan]
    exact hplaced.stop_boundary
  · rw [hstart]
    exact Nat.succ_pos _
  · rw [hstart, hend]
    exact Nat.add_le_add_right (node.rowAt_le_lastRow hplaced.start_le) 1
  · rw [hspan, hstart]
    exact LineTable.lineStart_row_le hplaced.start_boundary
  · rw [hspan, hend]
    exact node.le_lineEnd_lastRow hplaced.stop_boundary

/-- A symbol that begins before the end of the text begins before the end of its last line. -/
theorem Makes.start_lt_lineEnd {node : Node} (h : node.Makes language text s) (hplaced : node.Placed text)
    (hlt : s.span.start < Text.byteLen text) : s.span.start < (LineTable.ofText text).lineEnd s.lineEnd := by
  have hrow : text.rowAt node.span.start ≤ node.lastRow text := node.rowAt_le_lastRow hplaced.start_le
  rw [h.span_eq] at hlt
  have hend := LineTable.lt_lineEnd_row hplaced.start_boundary hlt
  rw [h.span_eq, h.lineEnd_eq, LineTable.lineEnd_eq_lineStart_succ]
  rw [LineTable.lineEnd_eq_lineStart_succ] at hend
  exact Nat.lt_of_lt_of_le hend (LineTable.lineStart_le_lineStart (Nat.succ_pos _) (by omega))

mutual

/-- A symbol found in a tree is made of one of its nodes. -/
theorem exists_node_of_mem_collect : ∀ {node : Node} {depth : Nat} {scope : Option Scope},
    s ∈ node.collect language text depth scope → ∃ n ∈ node.preorder, n.Makes language text s
  | mk kind named span links children, depth, scope, h => by
    have hself : mk kind named span links children ∈ (mk kind named span links children).preorder := by
      rw [preorder]
      exact List.mem_cons_self
    have hbelow : ∀ {d : Nat} {sc : Option Scope}, s ∈ collectAll language text d sc children →
        ∃ n ∈ (mk kind named span links children).preorder, n.Makes language text s := by
      intro d sc hs
      obtain ⟨n, hn, hspan⟩ := exists_node_of_mem_collectAll hs
      rw [preorder]
      exact ⟨n, List.mem_cons_of_mem _ hn, hspan⟩
    rw [collect] at h
    split at h
    · rw [List.mem_singleton.1 h]
      exact ⟨_, hself, makes_toSymbol _ _ _ _ _ (by simp)⟩
    · split at h
      · rename_i hattached
        rw [List.mem_singleton.1 h]
        exact ⟨_, hself, makes_toSymbol _ _ _ _ _ fun _ => hattached⟩
      · split at h
        · exact hbelow h
        · rename_i found hfound
          rcases List.mem_cons.1 h with rfl | h
          · exact ⟨_, hself, makes_toSymbol _ _ _ _ _ fun hkind => absurd hkind (ne_attachment_of_symbolKind? hfound)⟩
          · split at h
            · exact hbelow h
            · exact hbelow h

theorem exists_node_of_mem_collectAll : ∀ {nodes : List Node} {depth : Nat} {scope : Option Scope},
    s ∈ collectAll language text depth scope nodes → ∃ n ∈ preorderAll nodes, n.Makes language text s
  | [], _, _, h => by
    rw [collectAll] at h
    cases h
  | node :: rest, _, _, h => by
    rw [collectAll] at h
    rw [preorderAll]
    rcases List.mem_append.1 h with h | h
    · obtain ⟨n, hn, hspan⟩ := exists_node_of_mem_collect h
      exact ⟨n, List.mem_append_left _ hn, hspan⟩
    · obtain ⟨n, hn, hspan⟩ := exists_node_of_mem_collectAll h
      exact ⟨n, List.mem_append_right _ hn, hspan⟩

end

end Node

namespace SyntaxTree

variable {tree : SyntaxTree} {attachments : List String}

/-- The outline that a tree gives of a text. -/
def outline (language : Language) (text : Text) (tree : SyntaxTree) : Outline :=
  .ofSymbols text (tree.symbols language text)

/-- Symbols that the walk finds in reading order stay as they are. -/
theorem symbols_eq_collect (h : (tree.root.collect language text 0 none).Pairwise fun a b => Symbol.le a b) :
    tree.symbols language text = tree.root.collect language text 0 none :=
  List.mergeSort_of_pairwise h

theorem exists_node_of_mem_symbols (h : s ∈ tree.symbols language text) :
    ∃ n ∈ tree.root.preorder, n.Makes language text s :=
  Node.exists_node_of_mem_collect (mem_symbols.1 h)

/-- The symbols of a well-formed tree are located. -/
theorem WellFormed.located (h : tree.WellFormed text attachments) (hs : s ∈ tree.symbols language text) :
    s.Located text := by
  obtain ⟨n, hn, hmakes⟩ := exists_node_of_mem_symbols hs
  exact hmakes.located (h.placed n hn)

/-- The attachments of a well-formed tree are not empty. -/
theorem WellFormed.attachment_lt (h : tree.WellFormed text language.attachmentKinds)
    (hs : s ∈ tree.symbols language text) (hkind : s.kind = .attachment) : s.span.start < s.span.stop := by
  obtain ⟨n, hn, hmakes⟩ := exists_node_of_mem_symbols hs
  rw [hmakes.span_eq]
  exact h.annotated n hn (List.contains_iff_mem.1 (hmakes.attached hkind))

end SyntaxTree
end Chunkwise
