import Chunkwise.Proofs.Tree.Places
import Chunkwise.Total

/-!
# The walk for symbols, turn by turn

A walk for the symbols of a tree keeps the nodes that wait in a list, the next one last, each with its depth and the
nearest symbol around it, and the symbols found so far. A turn takes the last node (`Walk.turn`): its symbol is found if
it gives one (`Frame.symbol?`), and its children wait in front of all others, as deep as the node makes them
(`Frame.below`).

What a node and those under it give is its own symbol and what its children give (`Frame.symbols_eq`). So a turn leaves the
symbols found and those ahead as they are, with fewer nodes to go (`Walk.turn_cases`). A walk therefore ends, after no more
turns than the tree has nodes and one, with the symbols that the recursion over the tree collects (`Walk.run_start`);
sorted, they are the symbols of the tree (`walk_finds_symbols`).
-/

namespace Chunkwise
namespace Node

/-- A node that waits to be looked at, with its depth and the nearest symbol around it. -/
structure Frame where
  node : Node
  depth : Nat
  scope : Option Scope

/-- A walk: the nodes that wait, the next one last, and the symbols found so far. -/
structure Walk where
  waiting : List Frame
  found : List Symbol

variable {language : Language} {text : Text} {depth : Nat} {scope : Option Scope}

theorem collectAll_eq_flatMap (nodes : List Node) :
    collectAll language text depth scope nodes = nodes.flatMap (collect language text depth scope) := by
  induction nodes with
  | nil => rw [collectAll, List.flatMap_nil]
  | cons node rest ih => rw [collectAll, ih, List.flatMap_cons]

theorem length_preorderAll (nodes : List Node) :
    (preorderAll nodes).length = totalOf (·.preorder.length) nodes := by
  induction nodes with
  | nil => rfl
  | cons node rest ih => rw [preorderAll, List.length_append, ih, totalOf_cons]

namespace Frame

/-- The symbol of a node, if it gives one. -/
def symbol? (language : Language) (text : Text) (f : Frame) : Option Symbol :=
  if language.isComment f.node.kind || isDocstring language f.node then
    some (f.node.toSymbol text .comment none f.depth f.scope)
  else if language.isAttachment f.node.kind then some (f.node.toSymbol text .attachment none f.depth f.scope)
  else (language.symbolKind? f.node.kind).map fun found =>
    let kind := kindIn f.scope found
    f.node.toSymbol text kind (symbolName language kind text f.node) f.depth f.scope

/-- The children of a node, unless nothing is looked for under it. Those of a definition are one level deeper and have it
around them; a wrapper adds no level. -/
def below (language : Language) (text : Text) (f : Frame) : List Frame :=
  if f.node.isClosed language then []
  else match language.symbolKind? f.node.kind with
    | none => f.node.children.map (⟨·, f.depth, f.scope⟩)
    | some found =>
      let kind := kindIn f.scope found
      if kind = .wrapped then f.node.children.map (⟨·, f.depth, f.scope⟩)
      else f.node.children.map (⟨·, f.depth + 1, some ⟨kind, symbolName language kind text f.node⟩⟩)

/-- The symbols of a node and of those under it. -/
def symbols (language : Language) (text : Text) (f : Frame) : List Symbol :=
  f.node.collect language text f.depth f.scope

/-- The number of nodes in a list of trees. -/
def count (frames : List Frame) : Nat := totalOf (·.node.preorder.length) frames

theorem flatMap_symbols (nodes : List Node) :
    (nodes.map fun node => (⟨node, depth, scope⟩ : Frame)).flatMap (symbols language text) =
      collectAll language text depth scope nodes := by
  rw [collectAll_eq_flatMap, List.flatMap_map]
  rfl

/-- **A node gives its own symbol and what its children give.** -/
theorem symbols_eq (f : Frame) : f.symbols language text =
    (f.symbol? language text).toList ++ (f.below language text).flatMap (symbols language text) := by
  rw [symbols, collect_def, symbol?, below, isClosed]
  by_cases hcomment : (language.isComment f.node.kind || isDocstring language f.node)
  · simp [hcomment]
  by_cases hattachment : language.isAttachment f.node.kind
  · simp [hcomment, hattachment]
  rw [if_neg hcomment, if_neg hcomment, if_neg hattachment, if_neg hattachment, if_neg (by simp_all)]
  cases language.symbolKind? f.node.kind with
  | none =>
    simp only [Option.map_none, Option.toList_none, List.nil_append]
    rw [flatMap_symbols]
  | some found =>
    simp only [Option.map_some, Option.toList_some, List.singleton_append]
    split
    · rw [flatMap_symbols]
    · rw [flatMap_symbols]

/-- What waits below a node are its children, or none of them. -/
theorem count_below_lt (f : Frame) : count (f.below language text) < f.node.preorder.length := by
  have hchildren (depth : Nat) (scope : Option Scope) :
      count (f.node.children.map (⟨·, depth, scope⟩)) = (preorderAll f.node.children).length := by
    rw [count, totalOf_map, length_preorderAll]
  have hnone : count [] = 0 := rfl
  rw [length_preorder, below]
  split
  · omega
  · split
    · rw [hchildren]
      omega
    · simp only
      split <;> rw [hchildren] <;> omega

end Frame

namespace Walk

variable {root : Node} {w : Walk} {turns : Nat}

/-- A walk that begins at a node. -/
def start (root : Node) : Walk := ⟨[⟨root, 0, none⟩], []⟩

/-- One turn of a walk, as long as a node waits. -/
def turn (language : Language) (text : Text) (w : Walk) : Option Walk :=
  w.waiting.getLast?.map fun frame =>
    ⟨w.waiting.dropLast ++ (frame.below language text).reverse, w.found ++ (frame.symbol? language text).toList⟩

/-- What a walk finds within a number of turns; `none` if it has not ended by then. -/
def run (language : Language) (text : Text) : Nat → Walk → Option (List Symbol)
  | 0, _ => none
  | turns + 1, w => match w.turn language text with
    | none => some w.found
    | some next => run language text turns next

/-- The symbols that a walk has found, and those of the nodes ahead in the order in which it takes them. -/
def result (language : Language) (text : Text) (w : Walk) : List Symbol :=
  w.found ++ w.waiting.reverse.flatMap (Frame.symbols language text)

/-- **A turn leaves what is found and ahead as it is**, with fewer nodes to go. A walk ends when no node waits. -/
theorem turn_cases (language : Language) (text : Text) (w : Walk) :
    w.turn language text = none ∧ w.found = w.result language text ∨
    ∃ next, w.turn language text = some next ∧ next.result language text = w.result language text ∧
      Frame.count next.waiting < Frame.count w.waiting := by
  obtain ⟨waiting, found⟩ := w
  rcases List.eq_nil_or_concat waiting with rfl | ⟨front, frame, rfl⟩
  · left
    simp [turn, result]
  · right
    rw [List.concat_eq_append]
    refine ⟨⟨front ++ (frame.below language text).reverse, found ++ (frame.symbol? language text).toList⟩, ?_, ?_, ?_⟩
    · simp [turn]
    · simp [result, frame.symbols_eq, List.flatMap_append]
    · have hbelow : Frame.count (frame.below language text) < _ := frame.count_below_lt
      simp only [Frame.count, totalOf_append, totalOf_perm _ (List.reverse_perm _), totalOf_cons, totalOf_nil]
        at hbelow ⊢
      omega

/-- A walk ends with what it has found and ahead, once it has more turns than nodes to go. -/
theorem run_eq (hturns : Frame.count w.waiting < turns) : run language text turns w = some (w.result language text) := by
  induction turns generalizing w with
  | zero => exact absurd hturns (Nat.not_lt_zero _)
  | succ turns ih =>
    rw [run]
    rcases turn_cases language text w with ⟨hends, hfound⟩ | ⟨next, hgoes, hresult, hfewer⟩
    · rw [hends, hfound]
    · rw [hgoes, ← hresult]
      exact ih (by omega)

/-- **A walk ends**, after no more turns than the tree has nodes and one, with the symbols that the recursion collects. -/
theorem run_start (language : Language) (text : Text) (root : Node) (more : Nat) :
    run language text (root.preorder.length + 1 + more) (start root) = some (root.collect language text 0 none) := by
  have hcount : Frame.count (start root).waiting = root.preorder.length := Nat.add_zero _
  have hresult : (start root).result language text = root.collect language text 0 none := by
    simp [start, result, Frame.symbols]
  rw [run_eq (by omega), hresult]

end Walk
end Node

/-- **The symbols of a tree are those that the walk finds, in reading order.** The walk ends for every tree, after no more
turns than it has nodes and one. -/
theorem SyntaxTree.walk_finds_symbols (language : Language) (text : Text) (tree : SyntaxTree) (more : Nat) :
    (Node.Walk.run language text (tree.root.preorder.length + 1 + more) (Node.Walk.start tree.root)).map
      (·.mergeSort Symbol.le) = some (tree.symbols language text) := by
  rw [Node.Walk.run_start, Option.map_some, symbols]

end Chunkwise
