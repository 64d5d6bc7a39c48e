import Chunkwise.Language
import Chunkwise.Tree.Basic
import Chunkwise.Text.Blank
import Chunkwise.Text.Line

/-!
# Names of symbols

The name of a symbol is looked up in its node: in the field for names, in the definition that the node wraps, in a
child that is an identifier, and last among all nodes under it. That last search looks at a limited number of nodes
in preorder (`firstNamed_eq_find?`). A heading is named by its title.
-/

namespace Chunkwise
namespace Node

/-- Number of nodes that a search for a name looks at, the node it starts at included. -/
def nameSearchLimit : Nat := 256

/-- Number of characters kept of a heading. -/
def headingNameLimit : Nat := 120

/-- The text of a node without blanks around it, unless it is blank. -/
def textOf (text : Text) (node : Node) : Option String :=
  match text.slice? node.span with
  | none => none
  | some slice => if slice.isBlank then none else some (String.ofList slice.trim)

/-- The first node that satisfies a test among the first `n` nodes in preorder of some trees. -/
def firstNamed (p : Node → Bool) : Nat → List Node → Option Node
  | 0, _ => none
  | _ + 1, [] => none
  | n + 1, node :: rest => if p node then some node else firstNamed p n (node.children ++ rest)

/-- A search looks at the first nodes of the preorder listing. -/
theorem firstNamed_eq_find? (p : Node → Bool) (n : Nat) (nodes : List Node) :
    firstNamed p n nodes = ((preorderAll nodes).take n).find? p := by
  induction n generalizing nodes with
  | zero => simp [firstNamed]
  | succ n ih =>
    cases nodes with
    | nil => simp [firstNamed, preorderAll]
    | cons node rest =>
      rw [firstNamed, preorderAll, preorder_eq, List.cons_append, List.take_succ_cons, List.find?_cons, ih,
        preorderAll_append]
      cases p node <;> rfl

/-- Whether a node can name a symbol. -/
def isName (language : Language) (node : Node) : Bool := language.nameKinds.contains node.kind

/-- The text of the first node under a node that can name a symbol. -/
def descendantName (language : Language) (text : Text) (node : Node) : Option String :=
  (firstNamed (isName language) (nameSearchLimit - 1) node.children).bind (textOf text)

/-- The title in the text of a heading: its first line without blanks and closing marks. -/
def headingTitle (heading : String) : String :=
  let line := Text.trim (heading.toList.takeWhile (· != '\n'))
  String.ofList ((Text.trim (Text.dropTrailing (· == '#') line)).take headingNameLimit)

/-- The name of a section: the title of the heading it begins with. -/
def sectionName (language : Language) (text : Text) (node : Node) : Option String :=
  match node.namedChildren.head? with
  | none => none
  | some heading =>
    if "_heading".toList.isSuffixOf heading.kind.toList then (descendantName language text heading).map headingTitle
    else none

/-- The name of the type that a block of implementations is for. -/
def implementedName (language : Language) (text : Text) (target : Node) : Option String :=
  (descendantName language text target).or (textOf text target)

mutual

/-- The name of a definition: its name field, the name of what it wraps, an identifier among its children, an
identifier further down. -/
def definitionName (language : Language) (kind : SymbolKind) (text : Text) : Node → Option String
  | mk nodeKind named span links children =>
    let node := mk nodeKind named span links children
    match (if language = .rust && kind = .implBlock then node.childIn links.type else none) with
    | some target => implementedName language text target
    | none =>
      match node.childIn links.name with
      | some name => textOf text name
      | none =>
        match links.definition.or links.declaration with
        | some i => wrappedName language kind text i children
        | none =>
          match children.find? (isName language) with
          | some child => textOf text child
          | none => descendantName language text node

/-- The name of the definition at an index of a list of nodes. -/
def wrappedName (language : Language) (kind : SymbolKind) (text : Text) : Nat → List Node → Option String
  | _, [] => none
  | 0, node :: _ => definitionName language kind text node
  | i + 1, _ :: rest => wrappedName language kind text i rest

end

/-- The name of a symbol of a kind that a node gives. -/
def symbolName (language : Language) (kind : SymbolKind) (text : Text) (node : Node) : Option String :=
  if kind = .heading then sectionName language text node else definitionName language kind text node

end Node
end Chunkwise
