import Chunkwise.Json.Decode
import Chunkwise.Language
import Chunkwise.Tree.Basic

/-!
# Syntax trees as JSON

A tree is written as the list of its nodes in preorder, each with the number of its children, and a table of the
node kinds. It is read from its end: the trees read so far wait on a stack, and a node takes as many of them as it has
children.
-/

namespace Chunkwise
namespace SyntaxTree

/-- One entry of the list of nodes. -/
structure Entry where
  kind : String
  named : Bool
  span : Span
  links : FieldLinks
  childCount : Nat

/-- Puts a node on the stack of trees, over its children. -/
def assemble (e : Entry) (stack : List Node) : List Node :=
  .mk e.kind e.named e.span e.links (stack.take e.childCount) :: stack.drop e.childCount

/-- The tree of a list of nodes in preorder. -/
def ofEntries? (entries : List Entry) : Option Node := (entries.foldr assemble []).head?

/-- The index that a field has in a list of pairs of a field and an index. -/
def linkOf? (name : String) : List Json → Option Nat
  | [] => none
  | .arr [.str field, index] :: rest => if field = name then index.count? else linkOf? name rest
  | _ :: rest => linkOf? name rest

/-- The links in a list of pairs of a field and an index. -/
def linksOf (pairs : List Json) : FieldLinks :=
  ⟨linkOf? "name" pairs, linkOf? "definition" pairs, linkOf? "declaration" pairs, linkOf? "type" pairs⟩

/-- A node kind and whether it is named. -/
def kindOf? : Json → Option (String × Bool)
  | .arr [.str kind, .int named] => some (kind, named != 0)
  | _ => none

/-- One entry of the list of nodes. -/
def entryOf? (kinds : Array (String × Bool)) : Json → Option Entry
  | .arr (kind :: start :: stop :: childCount :: more) => do
    let (kind, named) ← kinds[← kind.count?]?
    let links := match more with
      | [.arr pairs] => linksOf pairs
      | _ => {}
    some ⟨kind, named, ⟨← start.count?, ← stop.count?⟩, links, ← childCount.count?⟩
  | _ => none

/-- A tree with the language of its grammar. -/
def ofJson? (value : Json) : Option (Language × SyntaxTree) := do
  let fields ← value.fields?
  let language ← Language.ofName? (← (← Json.field? fields "language").str?)
  let hasErrors ← (← Json.field? fields "has_error").bool?
  let kinds ← (← (← Json.field? fields "kinds").items?).mapM kindOf?
  let entries ← (← (← Json.field? fields "nodes").items?).mapM (entryOf? kinds.toArray)
  some (language, ⟨← ofEntries? entries, hasErrors⟩)

end SyntaxTree
end Chunkwise
