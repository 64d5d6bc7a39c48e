import Chunkwise.Chunker.Section
import Chunkwise.Proofs.Text.Newlines
import Chunkwise.Proofs.Tree.Symbols

/-!
# How deep a tree is nested

A symbol is not as deep as its tree has nodes (`SyntaxTree.depth_lt`), and its lines are no more than the bytes of the
text (`SyntaxTree.WellFormed.line_le`). Code blocks that follow each other share no bytes, so that each byte counts once
for every code block around it: what the code blocks of a tree have of a span is no more than the span, taken as often
as code blocks are nested (`SyntaxTree.WellFormed.codeBytes_le`).
-/

namespace Chunkwise

variable {language : Language} {text : Text} {depth : Nat} {scope : Option Scope} {s : Symbol}

/-! ## Depth and lines of symbols -/

theorem Text.rowAt_le (text : Text) (pos : Nat) : text.rowAt pos ≤ text.byteLen := by
  rw [rowAt_eq_count, ← length_bytes]
  exact Nat.le_trans List.count_le_length (List.length_take_le' _ _)

namespace Node

mutual

/-- Every symbol found under a node is above the depth that the nodes of the tree would make. -/
theorem depth_lt_of_mem_collect : ∀ {node : Node} {depth : Nat} {scope : Option Scope},
    s ∈ node.collect language text depth scope → s.depth < depth + node.preorder.length
  | mk kind named span links children, depth, scope, h => by
    have hlength : (mk kind named span links children).preorder.length = (preorderAll children).length + 1 :=
      length_preorder _
    have hself : ∀ {kind' : SymbolKind} {name : Option String},
        ((mk kind named span links children).toSymbol text kind' name depth scope).depth = depth := rfl
    rw [hlength]
    rw [collect] at h
    split at h
    · rw [List.mem_singleton.1 h, hself]
      omega
    · split at h
      · rw [List.mem_singleton.1 h, hself]
        omega
      · split at h
        · have hbelow := depth_lt_of_mem_collectAll h
          omega
        · rcases List.mem_cons.1 h with rfl | h
          · rw [hself]
            omega
          · split at h
            · have hbelow := depth_lt_of_mem_collectAll h
              omega
            · have hbelow := depth_lt_of_mem_collectAll h
              omega

theorem depth_lt_of_mem_collectAll : ∀ {nodes : List Node} {depth : Nat} {scope : Option Scope},
    s ∈ collectAll language text depth scope nodes → s.depth < depth + (preorderAll nodes).length
  | [], _, _, h => by
    rw [collectAll] at h
    cases h
  | node :: rest, _, _, h => by
    rw [collectAll] at h
    rw [preorderAll, List.length_append]
    rcases List.mem_append.1 h with h | h
    · have hfirst := depth_lt_of_mem_collect h
      omega
    · have hrest := depth_lt_of_mem_collectAll h
      omega

end

end Node

/-- **A symbol is not as deep as its tree has nodes.** -/
theorem SyntaxTree.depth_lt {tree : SyntaxTree} (h : s ∈ tree.symbols language text) :
    s.depth < tree.root.preorder.length := by
  have hdepth := Node.depth_lt_of_mem_collect (mem_symbols.1 h)
  rwa [Nat.zero_add] at hdepth

/-- The last line of a symbol is no more than the bytes of its text and one. -/
theorem SyntaxTree.WellFormed.line_le {tree : SyntaxTree} {attachments : List String}
    (h : tree.WellFormed text attachments) (hs : s ∈ tree.symbols language text) :
    s.lineStart ≤ s.lineEnd ∧ s.lineEnd ≤ text.byteLen + 1 := by
  obtain ⟨node, -, hmakes⟩ := exists_node_of_mem_symbols hs
  have hstop := Text.rowAt_le text node.span.stop
  refine ⟨(h.located hs).line_le, ?_⟩
  rw [hmakes.lineEnd_eq]
  rcases Node.lastRow_cases text node with hlast | ⟨hlast, -, -⟩ <;> omega

/-! ## Code blocks in code blocks -/

/-- What two neighbours inside a span share with another one, the span shares with it as well. -/
theorem Span.shared_add_shared_le {outer s : Span} (span : Span) (hstart : outer.start ≤ s.start)
    (hle : s.start ≤ s.stop) (hstop : s.stop ≤ outer.stop) :
    s.shared span + (⟨s.stop, outer.stop⟩ : Span).shared span ≤ outer.shared span := by
  simp only [shared]
  omega

namespace Chunker

theorem codeBytes_append (as bs : List Symbol) (span : Span) :
    codeBytes (as ++ bs) span = codeBytes as span + codeBytes bs span := by
  rw [codeBytes, List.filter_append, totalOf_append]
  rfl

theorem codeBytes_cons (s : Symbol) (symbols : List Symbol) (span : Span) :
    codeBytes (s :: symbols) span = (if s.kind = .codeBlock then s.overlap span else 0) + codeBytes symbols span := by
  by_cases hkind : s.kind = .codeBlock
  · simp [codeBytes, hkind]
  · simp [codeBytes, hkind]

/-- The order of the symbols does not matter. -/
theorem codeBytes_perm {as bs : List Symbol} (h : as.Perm bs) (span : Span) : codeBytes as span = codeBytes bs span :=
  totalOf_perm _ (h.filter _)

end Chunker

namespace Node

open Chunker

mutual

/-- The number of code blocks that are nested in each other in a tree, at most. -/
def codeDepth (language : Language) : Node → Nat
  | mk kind _ _ _ children =>
    codeDepthAll language children + if language.symbolKind? kind = some .codeBlock then 1 else 0

/-- The number of code blocks that are nested in each other in some trees, at most. -/
def codeDepthAll (language : Language) : List Node → Nat
  | [] => 0
  | node :: rest => max (codeDepth language node) (codeDepthAll language rest)

end

theorem kindIn_eq_codeBlock {kind : SymbolKind} : kindIn scope kind = .codeBlock ↔ kind = .codeBlock := by
  rw [kindIn]
  split
  · rename_i h
    simp only [Bool.and_eq_true, decide_eq_true_eq] at h
    simp [h.1]
  · rfl

mutual

/-- What the code blocks of a tree have of a span is no more than the tree has of it, once for each level of them. -/
theorem codeBytes_collect_le (span : Span) : ∀ {node : Node} {depth : Nat} {scope : Option Scope},
    (∀ n ∈ node.preorder, n.Placed text) →
      codeBytes (node.collect language text depth scope) span ≤ node.codeDepth language * node.span.shared span
  | mk kind named outer links children, depth, scope, hplaced => by
    rw [preorder] at hplaced
    have hbelow : ∀ {d : Nat} {sc : Option Scope}, codeBytes (collectAll language text d sc children) span ≤
        codeDepthAll language children * outer.shared span := fun {_ _} =>
      codeBytes_collectAll_le span (fun n hn => hplaced n (List.mem_cons_of_mem _ hn))
        (hplaced _ List.mem_cons_self).inOrder
    have hshared : (mk kind named outer links children).span.shared span = outer.shared span := rfl
    rw [collect, codeDepth, hshared, Nat.add_mul]
    split
    · exact Nat.zero_le _
    · split
      · exact Nat.zero_le _
      · split
        · exact Nat.le_trans hbelow (Nat.le_add_right _ _)
        · rename_i found hfound
          have hown : (if kindIn scope found = .codeBlock then outer.shared span else 0) =
              (if language.symbolKind? kind = some .codeBlock then 1 else 0) * outer.shared span := by
            simp only [hfound, Option.some.injEq, kindIn_eq_codeBlock]
            split
            · rw [Nat.one_mul]
            · rw [Nat.zero_mul]
          have hchildren : codeBytes (if kindIn scope found = .wrapped then collectAll language text depth scope children
              else collectAll language text (depth + 1) (some ⟨kindIn scope found,
                symbolName language (kindIn scope found) text (mk kind named outer links children)⟩) children) span ≤
              codeDepthAll language children * outer.shared span := by
            split
            · exact hbelow
            · exact hbelow
          rw [codeBytes_cons, Nat.add_comm, ← hown]
          exact Nat.add_le_add_right hchildren _

theorem codeBytes_collectAll_le (span : Span) : ∀ {nodes : List Node} {outer : Span} {depth : Nat}
    {scope : Option Scope}, (∀ n ∈ preorderAll nodes, n.Placed text) → InOrder outer (nodes.map Node.span) →
      codeBytes (collectAll language text depth scope nodes) span ≤ codeDepthAll language nodes * outer.shared span
  | [], _, _, _, _, _ => by
    rw [collectAll]
    exact Nat.zero_le _
  | node :: rest, outer, depth, scope, hplaced, horder => by
    obtain ⟨hstart, hle, hstop, hbehind⟩ := horder
    rw [preorderAll] at hplaced
    have hfirst : codeBytes (node.collect language text depth scope) span ≤ _ :=
      codeBytes_collect_le span fun n hn => hplaced n (List.mem_append_left _ hn)
    have hrest : codeBytes (collectAll language text depth scope rest) span ≤ _ :=
      codeBytes_collectAll_le span (fun n hn => hplaced n (List.mem_append_right _ hn)) hbehind
    rw [collectAll, codeBytes_append, codeDepthAll]
    calc codeBytes (node.collect language text depth scope) span +
        codeBytes (collectAll language text depth scope rest) span
      _ ≤ node.codeDepth language * node.span.shared span +
          codeDepthAll language rest * (⟨node.span.stop, outer.stop⟩ : Span).shared span := Nat.add_le_add hfirst hrest
      _ ≤ max (node.codeDepth language) (codeDepthAll language rest) *
          (node.span.shared span + (⟨node.span.stop, outer.stop⟩ : Span).shared span) := by
        rw [Nat.mul_add]
        exact Nat.add_le_add (Nat.mul_le_mul_right _ (Nat.le_max_left _ _))
          (Nat.mul_le_mul_right _ (Nat.le_max_right _ _))
      _ ≤ max (node.codeDepth language) (codeDepthAll language rest) * outer.shared span :=
        Nat.mul_le_mul_left _ (Span.shared_add_shared_le span hstart hle hstop)

end

end Node

/-- **Bytes count no more often than code blocks are nested.** -/
theorem SyntaxTree.WellFormed.codeBytes_le {tree : SyntaxTree} {attachments : List String}
    (h : tree.WellFormed text attachments) (span : Span) :
    Chunker.codeBytes (tree.symbols language text) span ≤
      tree.root.codeDepth language * (span.stop - span.start) := by
  rw [symbols, Chunker.codeBytes_perm (List.mergeSort_perm _ _)]
  refine Nat.le_trans (Node.codeBytes_collect_le span h.placed) (Nat.mul_le_mul_left _ ?_)
  rw [Span.shared]
  omega

end Chunkwise
