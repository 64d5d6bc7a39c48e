import Chunkwise.Proofs.Tree.Symbols

/-!
# The spans of a tree do not cross

What is in a tree lies in the span of its root (`Node.encloses_of_mem_preorder`), and trees side by side follow each
other. By induction over the tree, of any two nodes one lies in the other or they are apart
(`Node.nested_of_mem_preorder`); so do the symbols of a well-formed tree (`SyntaxTree.WellFormed.nested`).
-/

namespace Chunkwise

variable {language : Language} {text : Text} {a b : Node} {outer : Span}

/-- Whether two spans do not cross: one lies in the other, or one ends before the other begins. -/
def Span.Nested (a b : Span) : Prop := a.encloses b ∨ b.encloses a ∨ a.stop ≤ b.start ∨ b.stop ≤ a.start

namespace Node

mutual

/-- What is in a tree lies in the span of its root. -/
theorem encloses_of_mem_preorder : ∀ {node : Node}, (∀ n ∈ node.preorder, n.Placed text) → a ∈ node.preorder →
    node.span.encloses a.span
  | mk kind named span links children, hplaced, h => by
    rw [preorder] at hplaced h
    rcases List.mem_cons.1 h with rfl | h
    · exact Span.encloses_iff.2 ⟨Nat.le_refl _, Nat.le_refl _⟩
    · have hroot := hplaced _ List.mem_cons_self
      exact encloses_of_mem_preorderAll (fun n hn => hplaced n (List.mem_cons_of_mem _ hn)) hroot.inOrder h

/-- What is in trees that follow each other inside a span lies in that span. -/
theorem encloses_of_mem_preorderAll : ∀ {nodes : List Node} {outer : Span},
    (∀ n ∈ preorderAll nodes, n.Placed text) → InOrder outer (nodes.map span) → a ∈ preorderAll nodes →
      outer.encloses a.span
  | [], outer, _, _, h => by
    rw [preorderAll] at h
    cases h
  | node :: rest, outer, hplaced, horder, h => by
    obtain ⟨hstart, hle, hstop, horder⟩ := horder
    rw [preorderAll] at hplaced h
    rcases List.mem_append.1 h with h | h
    · have hin := encloses_of_mem_preorder (fun n hn => hplaced n (List.mem_append_left _ hn)) h
      obtain ⟨hfirst, hlast⟩ := Span.encloses_iff.1 hin
      exact Span.encloses_iff.2 ⟨Nat.le_trans hstart hfirst, Nat.le_trans hlast hstop⟩
    · have hin := encloses_of_mem_preorderAll (fun n hn => hplaced n (List.mem_append_right _ hn)) horder h
      obtain ⟨hfirst, hlast⟩ := Span.encloses_iff.1 hin
      exact Span.encloses_iff.2 ⟨Nat.le_trans hstart (Nat.le_trans hle hfirst), hlast⟩

end

theorem mem_preorderAll_cons {node : Node} {rest : List Node} :
    a ∈ preorderAll (node :: rest) ↔ a ∈ node.preorder ∨ a ∈ preorderAll rest := by
  rw [preorderAll, List.mem_append]

/-- What is in a tree ends before what is in the trees behind it begins. -/
theorem stop_le_start_of_mem {node : Node} {rest : List Node} (hplaced : ∀ n ∈ preorderAll (node :: rest), n.Placed text)
    (horder : InOrder outer ((node :: rest).map span)) (ha : a ∈ node.preorder) (hb : b ∈ preorderAll rest) :
    a.span.stop ≤ b.span.start := by
  obtain ⟨-, -, -, horder⟩ := horder
  rw [preorderAll] at hplaced
  have hleft := encloses_of_mem_preorder (fun n hn => hplaced n (List.mem_append_left _ hn)) ha
  have hright := encloses_of_mem_preorderAll (fun n hn => hplaced n (List.mem_append_right _ hn)) horder hb
  calc a.span.stop
    _ ≤ node.span.stop := (Span.encloses_iff.1 hleft).2
    _ ≤ b.span.start := (Span.encloses_iff.1 hright).1

mutual

/-- **Of two nodes of a tree one lies in the other, or they are apart.** -/
theorem nested_of_mem_preorder : ∀ {node : Node}, (∀ n ∈ node.preorder, n.Placed text) → a ∈ node.preorder →
    b ∈ node.preorder → a.span.Nested b.span
  | mk kind named span links children, hplaced, ha, hb => by
    have hroot := hplaced _ (by rw [preorder]; exact List.mem_cons_self)
    -- The root encloses both, so that only two nodes below it are left to look at.
    have hain := encloses_of_mem_preorder hplaced ha
    have hbin := encloses_of_mem_preorder hplaced hb
    rw [preorder] at hplaced ha hb
    rcases List.mem_cons.1 ha with rfl | ha
    · exact Or.inl hbin
    · rcases List.mem_cons.1 hb with rfl | hb
      · exact Or.inr (Or.inl hain)
      · exact nested_of_mem_preorderAll (fun n hn => hplaced n (List.mem_cons_of_mem _ hn)) hroot.inOrder ha hb

theorem nested_of_mem_preorderAll : ∀ {nodes : List Node} {outer : Span}, (∀ n ∈ preorderAll nodes, n.Placed text) →
    InOrder outer (nodes.map span) → a ∈ preorderAll nodes → b ∈ preorderAll nodes → a.span.Nested b.span
  | [], _, _, _, ha, _ => by
    rw [preorderAll] at ha
    cases ha
  | node :: rest, _, hplaced, horder, ha, hb => by
    have hnode : ∀ n ∈ node.preorder, n.Placed text := fun n hn => hplaced n (mem_preorderAll_cons.2 (Or.inl hn))
    have hrest : ∀ n ∈ preorderAll rest, n.Placed text := fun n hn => hplaced n (mem_preorderAll_cons.2 (Or.inr hn))
    rcases mem_preorderAll_cons.1 ha with ha | ha
    · rcases mem_preorderAll_cons.1 hb with hb | hb
      · exact nested_of_mem_preorder hnode ha hb
      · exact Or.inr (Or.inr (Or.inl (stop_le_start_of_mem hplaced horder ha hb)))
    · rcases mem_preorderAll_cons.1 hb with hb | hb
      · exact Or.inr (Or.inr (Or.inr (stop_le_start_of_mem hplaced horder hb ha)))
      · exact nested_of_mem_preorderAll hrest horder.2.2.2 ha hb

end

end Node

/-- The symbols of a well-formed tree do not cross. -/
theorem SyntaxTree.WellFormed.nested {tree : SyntaxTree} {attachments : List String} {s t : Symbol}
    (h : tree.WellFormed text attachments) (hs : s ∈ tree.symbols language text) (ht : t ∈ tree.symbols language text) :
    s.span.Nested t.span := by
  obtain ⟨a, ha, hmakes⟩ := exists_node_of_mem_symbols hs
  obtain ⟨b, hb, hmakes'⟩ := exists_node_of_mem_symbols ht
  rw [hmakes.span_eq, hmakes'.span_eq]
  exact Node.nested_of_mem_preorder h.placed ha hb

end Chunkwise
