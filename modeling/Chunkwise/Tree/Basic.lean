import Chunkwise.Text.Basic

/-!
# Syntax trees

A syntax tree as a grammar gives it: nodes with a kind, a span of bytes, children in order, and for some of the
children the field they fill. `preorder` lists the nodes of a tree, each before those under it.

* `preorder_eq`: a listing begins with its node and goes on with the listings of the children.
* `WellFormed`: what a grammar promises of the tree of a text; whether a tree keeps the promise can be decided.
-/

namespace Chunkwise

/-- Which children fill the fields that names are looked up in, by their index. -/
structure FieldLinks where
  name : Option Nat := none
  definition : Option Nat := none
  declaration : Option Nat := none
  type : Option Nat := none
deriving DecidableEq, Repr

/-- A node of a syntax tree. -/
inductive Node where
  | mk (kind : String) (named : Bool) (span : Span) (links : FieldLinks) (children : List Node)

/-- A syntax tree, and whether the parser had to recover from errors. -/
structure SyntaxTree where
  root : Node
  hasErrors : Bool

namespace Node

/-- The name of the grammar rule that a node stands for. -/
def kind : Node → String | mk kind _ _ _ _ => kind

/-- Whether a node stands for a named rule and not for a piece of punctuation. -/
def named : Node → Bool | mk _ named _ _ _ => named

/-- The bytes of a node. -/
def span : Node → Span | mk _ _ span _ _ => span

/-- The children that fill a field. -/
def links : Node → FieldLinks | mk _ _ _ links _ => links

/-- The children of a node in order. -/
def children : Node → List Node | mk _ _ _ _ children => children

/-- The children that stand for named rules. -/
def namedChildren (node : Node) : List Node := node.children.filter (·.named)

/-- The child that fills a field. -/
def childIn (node : Node) (link : Option Nat) : Option Node := link.bind (node.children[·]?)

mutual

/-- The nodes of a tree, each before the nodes under it. -/
def preorder : Node → List Node
  | mk kind named span links children => mk kind named span links children :: preorderAll children

/-- The nodes of a list of trees, tree by tree. -/
def preorderAll : List Node → List Node
  | [] => []
  | node :: rest => preorder node ++ preorderAll rest

end

/-- A listing begins with its node and goes on with the listings of the children. -/
theorem preorder_eq (node : Node) : node.preorder = node :: preorderAll node.children := by
  cases node; rw [preorder]; rfl

theorem length_preorder (node : Node) : node.preorder.length = (preorderAll node.children).length + 1 := by
  rw [preorder_eq, List.length_cons]

theorem preorderAll_append (a b : List Node) : preorderAll (a ++ b) = preorderAll a ++ preorderAll b := by
  induction a with
  | nil => simp [preorderAll]
  | cons n a ih => simp [preorderAll, ih]

/-- Whether spans follow each other without overlap inside a span. -/
def InOrder (outer : Span) : List Span → Prop
  | [] => True
  | s :: rest => outer.start ≤ s.start ∧ s.start ≤ s.stop ∧ s.stop ≤ outer.stop ∧ InOrder ⟨s.stop, outer.stop⟩ rest

instance decidableInOrder (outer : Span) : (spans : List Span) → Decidable (InOrder outer spans)
  | [] => isTrue trivial
  | s :: rest =>
    have := decidableInOrder ⟨s.stop, outer.stop⟩ rest
    inferInstanceAs (Decidable (outer.start ≤ s.start ∧ s.start ≤ s.stop ∧ s.stop ≤ outer.stop ∧
      InOrder ⟨s.stop, outer.stop⟩ rest))

/-- What a grammar promises of one node of the tree of a text: its span stands on positions of the text, and its
children follow each other inside it. -/
structure Placed (text : Text) (node : Node) : Prop where
  start_le : node.span.start ≤ node.span.stop
  start_boundary : text.isBoundary node.span.start
  stop_boundary : text.isBoundary node.span.stop
  inOrder : InOrder node.span (node.children.map span)

theorem placed_iff {text : Text} {node : Node} : node.Placed text ↔
    node.span.start ≤ node.span.stop ∧ text.isBoundary node.span.start ∧ text.isBoundary node.span.stop ∧
      InOrder node.span (node.children.map span) :=
  ⟨fun ⟨hle, hstart, hstop, horder⟩ => ⟨hle, hstart, hstop, horder⟩,
    fun ⟨hle, hstart, hstop, horder⟩ => ⟨hle, hstart, hstop, horder⟩⟩

instance (text : Text) (node : Node) : Decidable (node.Placed text) := decidable_of_iff _ placed_iff.symm

end Node

/-- What a grammar promises of the tree of a text: every node is in its place, and the nodes of the kinds given,
those of attachments, are not empty. -/
structure SyntaxTree.WellFormed (text : Text) (attachments : List String) (tree : SyntaxTree) : Prop where
  placed : ∀ node ∈ tree.root.preorder, node.Placed text
  annotated : ∀ node ∈ tree.root.preorder, node.kind ∈ attachments → node.span.start < node.span.stop

theorem SyntaxTree.wellFormed_iff {text : Text} {attachments : List String} {tree : SyntaxTree} :
    tree.WellFormed text attachments ↔ (∀ node ∈ tree.root.preorder, node.Placed text) ∧
      ∀ node ∈ tree.root.preorder, node.kind ∈ attachments → node.span.start < node.span.stop :=
  ⟨fun ⟨hplaced, hannotated⟩ => ⟨hplaced, hannotated⟩, fun ⟨hplaced, hannotated⟩ => ⟨hplaced, hannotated⟩⟩

instance (text : Text) (attachments : List String) (tree : SyntaxTree) : Decidable (tree.WellFormed text attachments) :=
  decidable_of_iff _ SyntaxTree.wellFormed_iff.symm

end Chunkwise
