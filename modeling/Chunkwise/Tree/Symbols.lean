import Chunkwise.Symbol.Basic
import Chunkwise.Tree.Name

/-!
# Symbols of a syntax tree

A walk over the tree of a text collects its symbols. Comments, documentation strings and attachments are symbols
that nothing is looked for under; a function directly in a container is a method; a wrapper is a symbol, but what it
wraps belongs to what the wrapper belongs to. `SyntaxTree.symbols` lists them in reading order
(`mem_symbols`: the order is all that sorting changes).
-/

namespace Chunkwise

/-- The nearest symbol around a node. -/
structure Scope where
  kind : SymbolKind
  name : Option String

namespace Node

/-- Whether a node is a statement that holds a string and nothing else, as documentation strings do. -/
def isDocstring (language : Language) (node : Node) : Bool :=
  language == .python && node.kind == "expression_statement"
    && match node.namedChildren with
      | [child] => child.kind == "string"
      | _ => false

/-- The last row of a node. A node that takes in its newline ends at the start of the next row. -/
def lastRow (text : Text) (node : Node) : Nat :=
  let first := text.rowAt node.span.start
  let last := text.rowAt node.span.stop
  if text.columnAt node.span.stop == 0 && first < last then last - 1 else last

/-- The symbol of a node. -/
def toSymbol (text : Text) (node : Node) (kind : SymbolKind) (name : Option String) (depth : Nat)
    (scope : Option Scope) : Symbol :=
  { name, kind, lineStart := text.rowAt node.span.start + 1, lineEnd := lastRow text node + 1, span := node.span,
    depth, parent := scope.bind (·.name) }

/-- The kind of a symbol in a scope: a function in a container is a method. -/
def kindIn (scope : Option Scope) (kind : SymbolKind) : SymbolKind :=
  if kind = .function && scope.any (·.kind.isContainer) then .method else kind

mutual

/-- The symbols of a node in a scope and of the nodes under it, in preorder. -/
def collect (language : Language) (text : Text) (depth : Nat) (scope : Option Scope) : Node → List Symbol
  | mk nodeKind named span links children =>
    let node := mk nodeKind named span links children
    if language.isComment nodeKind || isDocstring language node then
      [node.toSymbol text .comment none depth scope]
    else if language.isAttachment nodeKind then
      [node.toSymbol text .attachment none depth scope]
    else match language.symbolKind? nodeKind with
      | none => collectAll language text depth scope children
      | some found =>
        let kind := kindIn scope found
        let name := symbolName language kind text node
        node.toSymbol text kind name depth scope ::
          if kind = .wrapped then collectAll language text depth scope children
          else collectAll language text (depth + 1) (some ⟨kind, name⟩) children

/-- The symbols of nodes in a scope, node by node. -/
def collectAll (language : Language) (text : Text) (depth : Nat) (scope : Option Scope) : List Node → List Symbol
  | [] => []
  | node :: rest => collect language text depth scope node ++ collectAll language text depth scope rest

end
end Node

namespace SyntaxTree

/-- The symbols of a text in reading order. -/
def symbols (language : Language) (text : Text) (tree : SyntaxTree) : List Symbol :=
  (tree.root.collect language text 0 none).mergeSort Symbol.le

/-- Sorting changes only the order. -/
theorem mem_symbols {language : Language} {text : Text} {tree : SyntaxTree} {s : Symbol} :
    s ∈ tree.symbols language text ↔ s ∈ tree.root.collect language text 0 none :=
  (List.mergeSort_perm _ _).mem_iff

end SyntaxTree
end Chunkwise
