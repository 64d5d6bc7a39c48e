import Chunkwise.Tree.Symbols

/-!
# What the place of a node makes of it

Which symbol a node gives can be read off the nodes around it, without the walk that collects the symbols: a node is
looked at unless something around it is closed (`Place.visited`), its kind depends on the nearest definition around it
(`Place.kind?`, `nearestKind_eq`), and it is as deep as it has definitions around it (`Place.scopes`). The symbols of a
tree are those of its places, in another order (`symbols_perm_places`).
-/

namespace Chunkwise

/-- A node of a tree and the nodes around it, the nearest first. -/
structure Place where
  node : Node
  around : List Node

namespace Node

mutual

/-- The places in a tree that stands inside some nodes, each before those under it. -/
def places (around : List Node) : Node → List Place
  | mk kind named span links children =>
    ⟨mk kind named span links children, around⟩ :: placesAll (mk kind named span links children :: around) children

/-- The places in trees that stand side by side inside some nodes. -/
def placesAll (around : List Node) : List Node → List Place
  | [] => []
  | node :: rest => places around node ++ placesAll around rest

end

/-- Whether nothing is looked for under a node: a comment, a documentation string or an attachment. -/
def isClosed (language : Language) (node : Node) : Bool :=
  language.isComment node.kind || isDocstring language node || language.isAttachment node.kind

/-- The kind of the symbol that a node gives, if it gives one. A function is a method if the nearest definition around
it is a container. -/
def kindUnder (language : Language) (nearest : Option SymbolKind) (node : Node) : Option SymbolKind :=
  if language.isComment node.kind || isDocstring language node then some .comment
  else if language.isAttachment node.kind then some .attachment
  else (language.symbolKind? node.kind).map fun kind =>
    if kind = .function && nearest.any (·.isContainer) then .method else kind

/-- The kind of the nearest of some nodes, each inside those behind it, that gives a symbol other than a wrapper. -/
def nearestKind (language : Language) : List Node → Option SymbolKind
  | [] => none
  | node :: around =>
    ((kindUnder language (nearestKind language around) node).filter (· != .wrapped)).or (nearestKind language around)

/-- The places of nodes that stand each inside those behind it. -/
def placesAround : List Node → List Place
  | [] => []
  | node :: around => ⟨node, around⟩ :: placesAround around

/-- The walk, read off a node without taking it apart. -/
theorem collect_def (language : Language) (text : Text) (depth : Nat) (scope : Option Scope) (node : Node) :
    node.collect language text depth scope =
      if language.isComment node.kind || isDocstring language node then
        [node.toSymbol text .comment none depth scope]
      else if language.isAttachment node.kind then [node.toSymbol text .attachment none depth scope]
      else match language.symbolKind? node.kind with
        | none => collectAll language text depth scope node.children
        | some found =>
          node.toSymbol text (kindIn scope found) (symbolName language (kindIn scope found) text node) depth scope ::
            if kindIn scope found = .wrapped then collectAll language text depth scope node.children
            else collectAll language text (depth + 1)
              (some ⟨kindIn scope found, symbolName language (kindIn scope found) text node⟩) node.children := by
  cases node
  rw [collect]
  rfl

end Node

namespace Place

variable (language : Language) (text : Text)

/-- The kind of the symbol at a place, if there is one. -/
def kind? (p : Place) : Option SymbolKind := p.node.kindUnder language (Node.nearestKind language p.around)

/-- Whether a place is looked at: nothing around it is closed. -/
def visited (p : Place) : Bool := p.around.all fun node => !node.isClosed language

/-- The places around a place that are looked at and give a symbol other than a wrapper, the nearest first. -/
def scopes (p : Place) : List Place :=
  (Node.placesAround p.around).filter fun q => q.visited language && (q.kind? language).any (· != .wrapped)

/-- The name of the symbol at a place. What is closed has none. -/
def name? (p : Place) : Option String :=
  if p.node.isClosed language then none
  else (p.kind? language).bind fun kind => p.node.symbolName language kind text

/-- The symbol at a place, if there is one. -/
def symbol? (p : Place) : Option Symbol :=
  (p.kind? language).map fun kind =>
    { name := p.name? language text
      kind
      lineStart := text.rowAt p.node.span.start + 1
      lineEnd := p.node.lastRow text + 1
      span := p.node.span
      depth := (p.scopes language).length
      parent := (p.scopes language).head?.bind (·.name? language text) }

variable {language : Language} {text : Text} {p q : Place} {node : Node} {around : List Node}
variable {kind : SymbolKind}

theorem visited_iff : p.visited language ↔ ∀ node ∈ p.around, ¬ node.isClosed language := by
  simp [visited]

/-! ## Scopes -/

theorem scopes_cons (hopen : (⟨node, around⟩ : Place).visited language) (inner : Node) :
    (⟨inner, node :: around⟩ : Place).scopes language =
      if ((⟨node, around⟩ : Place).kind? language).any (· != .wrapped) then
        ⟨node, around⟩ :: (⟨node, around⟩ : Place).scopes language
      else (⟨node, around⟩ : Place).scopes language := by
  rw [scopes, Node.placesAround, List.filter_cons, hopen, Bool.true_and]
  rfl

/-- The nearest definition around a place that is looked at is its first scope. -/
theorem nearestKind_eq (hopen : p.visited language) :
    Node.nearestKind language p.around = (p.scopes language).head?.bind (·.kind? language) := by
  obtain ⟨inner, around⟩ := p
  induction around generalizing inner with
  | nil => rfl
  | cons node around ih =>
    have hrest : (⟨node, around⟩ : Place).visited language :=
      visited_iff.2 fun n hn => visited_iff.1 hopen n (List.mem_cons_of_mem _ hn)
    have hnearest : Node.nearestKind language around = _ := ih node hrest
    have hkind : node.kindUnder language (Node.nearestKind language around) =
        (⟨node, around⟩ : Place).kind? language := rfl
    rw [scopes_cons hrest, Node.nearestKind, hkind, hnearest]
    cases hk : (⟨node, around⟩ : Place).kind? language with
    | none => rfl
    | some kind =>
      by_cases hwrapped : kind = .wrapped
      · simp [hwrapped, Option.filter_some]
      · simp [hwrapped, hk, Option.filter_some]

/-- The scope of a place: the kind and the name of the nearest definition around it. -/
def scope? (language : Language) (text : Text) (p : Place) : Option Scope :=
  (p.scopes language).head?.bind fun q => (q.kind? language).map fun kind => ⟨kind, q.name? language text⟩

theorem exists_kind_of_head?_scopes (h : (p.scopes language).head? = some q) :
    ∃ kind, q.kind? language = some kind ∧ kind ≠ .wrapped := by
  have hq := (List.mem_filter.1 (List.mem_of_head? h)).2
  simp only [Bool.and_eq_true, Option.any_eq_true, bne_iff_ne] at hq
  exact hq.2

theorem scope?_name (text : Text) (p : Place) :
    (p.scope? language text).bind (·.name) = (p.scopes language).head?.bind (·.name? language text) := by
  rw [scope?]
  cases hhead : (p.scopes language).head? with
  | none => rfl
  | some q =>
    obtain ⟨kind, hkind, -⟩ := exists_kind_of_head?_scopes hhead
    simp [hkind]

theorem scope?_kind (text : Text) (hopen : p.visited language) :
    (p.scope? language text).map (·.kind) = Node.nearestKind language p.around := by
  rw [nearestKind_eq hopen, scope?]
  cases hhead : (p.scopes language).head? with
  | none => rfl
  | some q =>
    obtain ⟨kind, hkind, -⟩ := exists_kind_of_head?_scopes hhead
    simp [hkind]

/-! ## One step of the walk -/

/-- The place of a node right under a place. -/
def below (p : Place) (node : Node) : Place := ⟨node, p.node :: p.around⟩

theorem visited_below (hopen : p.visited language) (node : Node) :
    (p.below node).visited language = !p.node.isClosed language := by
  have hall : p.around.all (fun n => !n.isClosed language) = true := hopen
  simp [visited, below, hall]

/-- A place that gives no symbol, or a wrapper, is passed over. -/
theorem below_of_not_scope (text : Text) (hopen : p.visited language)
    (hkind : p.kind? language = none ∨ p.kind? language = some .wrapped) (node : Node) :
    (p.below node).scopes language = p.scopes language ∧
      (p.below node).scope? language text = p.scope? language text := by
  have hscopes : (p.below node).scopes language = p.scopes language := by
    rw [below, scopes_cons hopen, if_neg]
    rcases hkind with hkind | hkind <;> simp [hkind]
  exact ⟨hscopes, by rw [scope?, scope?, hscopes]⟩

/-- Any other symbol is a scope of what is under it. -/
theorem below_of_scope (text : Text) (hopen : p.visited language) (hkind : p.kind? language = some kind)
    (hne : kind ≠ .wrapped) (node : Node) :
    (p.below node).scopes language = p :: p.scopes language ∧
      (p.below node).scope? language text = some ⟨kind, p.name? language text⟩ := by
  have hscopes : (p.below node).scopes language = p :: p.scopes language := by
    rw [below, scopes_cons hopen, if_pos]
    simp [hkind, hne]
  exact ⟨hscopes, by rw [scope?, hscopes]; simp [hkind]⟩

theorem symbol?_eq (hkind : p.kind? language = some kind) : p.symbol? language text = some
    (p.node.toSymbol text kind (p.name? language text) (p.scopes language).length (p.scope? language text)) := by
  rw [symbol?, hkind, Node.toSymbol, scope?_name]
  rfl

theorem kind?_of_comment (h : language.isComment p.node.kind || p.node.isDocstring language) :
    p.kind? language = some .comment := if_pos h

theorem kind?_of_attachment (h : ¬ (language.isComment p.node.kind || p.node.isDocstring language))
    (hattached : language.isAttachment p.node.kind) : p.kind? language = some .attachment :=
  (if_neg h).trans (if_pos hattached)

/-- The walk gives a definition the kind that its place gives it. -/
theorem kind?_of_open (text : Text) (hopen : p.visited language) (hclosed : ¬ p.node.isClosed language) :
    p.kind? language = (language.symbolKind? p.node.kind).map (Node.kindIn (p.scope? language text)) := by
  simp only [Node.isClosed, Bool.or_eq_true, not_or] at hclosed
  rw [kind?, Node.kindUnder, if_neg (by simp [hclosed]), if_neg (by simp [hclosed])]
  congr 1
  funext found
  rw [Node.kindIn, ← scope?_kind text hopen, Option.any_map]

/-- At a place that is looked at the walk finds the symbol of the place, and goes on below it unless it is closed. -/
theorem collect_eq (text : Text) (hopen : p.visited language) (inner : Node) :
    p.node.collect language text (p.scopes language).length (p.scope? language text) =
      (p.symbol? language text).toList ++ if p.node.isClosed language then [] else
        Node.collectAll language text ((p.below inner).scopes language).length ((p.below inner).scope? language text)
          p.node.children := by
  -- The cases are those of the walk: a comment, an attachment, no symbol, a wrapper, any other definition.
  rw [p.node.collect_def]
  by_cases hcomment : language.isComment p.node.kind || p.node.isDocstring language
  · have hclosed : p.node.isClosed language := Bool.or_eq_true_iff.2 (Or.inl hcomment)
    rw [if_pos hcomment, if_pos hclosed, symbol?_eq (kind?_of_comment hcomment), name?, if_pos hclosed]
    rfl
  by_cases hattached : language.isAttachment p.node.kind
  · have hclosed : p.node.isClosed language := Bool.or_eq_true_iff.2 (Or.inr hattached)
    rw [if_neg hcomment, if_pos hattached, if_pos hclosed, symbol?_eq (kind?_of_attachment hcomment hattached), name?,
      if_pos hclosed]
    rfl
  have hclosed : ¬ p.node.isClosed language := fun h => (Bool.or_eq_true_iff.1 h).elim hcomment hattached
  have hkind := kind?_of_open text hopen hclosed
  rw [if_neg hcomment, if_neg hattached, if_neg hclosed]
  cases hfound : language.symbolKind? p.node.kind with
  | none =>
    rw [hfound, Option.map_none] at hkind
    obtain ⟨hscopes, hscope⟩ := below_of_not_scope text hopen (Or.inl hkind) inner
    rw [hscopes, hscope, symbol?, hkind]
    rfl
  | some found =>
    rw [hfound, Option.map_some] at hkind
    have hname : p.name? language text =
        p.node.symbolName language (Node.kindIn (p.scope? language text) found) text := by
      rw [name?, if_neg hclosed, hkind, Option.bind_some]
    rw [symbol?_eq hkind, hname]
    simp only [Option.toList_some, List.singleton_append, List.cons.injEq, true_and]
    by_cases hwrapped : Node.kindIn (p.scope? language text) found = .wrapped
    · rw [hwrapped] at hkind
      obtain ⟨hscopes, hscope⟩ := below_of_not_scope text hopen (Or.inr hkind) inner
      rw [if_pos hwrapped, hscopes, hscope]
    · obtain ⟨hscopes, hscope⟩ := below_of_scope text hopen hkind hwrapped inner
      rw [if_neg hwrapped, hscopes, hscope, hname, List.length_cons]

end Place

namespace Node

variable {language : Language} {text : Text}

mutual

/-- Every node of a tree has its place. -/
theorem map_node_places (around : List Node) : ∀ node : Node, (places around node).map (·.node) = node.preorder
  | mk kind named span links children => by
    rw [places, preorder, List.map_cons, map_node_placesAll]

theorem map_node_placesAll (around : List Node) :
    ∀ nodes : List Node, (placesAll around nodes).map (·.node) = preorderAll nodes
  | [] => by rw [placesAll, preorderAll, List.map_nil]
  | node :: rest => by
    rw [placesAll, preorderAll, List.map_append, map_node_places, map_node_placesAll]

end

mutual

/-- What is around a tree is what the nodes around its places end with. -/
theorem suffix_of_mem_places {p : Place} : ∀ {node : Node} {around : List Node}, p ∈ places around node → around <:+ p.around
  | mk kind named span links children, around, h => by
    rw [places] at h
    rcases List.mem_cons.1 h with rfl | h
    · exact List.suffix_rfl
    · exact (List.suffix_cons _ _).trans (suffix_of_mem_placesAll h)

theorem suffix_of_mem_placesAll {p : Place} : ∀ {nodes around : List Node}, p ∈ placesAll around nodes → around <:+ p.around
  | [], _, h => by
    rw [placesAll] at h
    cases h
  | node :: rest, around, h => by
    rw [placesAll] at h
    rcases List.mem_append.1 h with h | h
    · exact suffix_of_mem_places h
    · exact suffix_of_mem_placesAll h

end

/-- Nothing under a closed node is looked at. -/
theorem filter_visited_of_closed {node : Node} {around nodes : List Node} (hclosed : node.isClosed language) :
    (placesAll (node :: around) nodes).filter (·.visited language) = [] := by
  refine List.filter_eq_nil_iff.2 fun p hp hopen => ?_
  exact Place.visited_iff.1 hopen node ((suffix_of_mem_placesAll hp).subset List.mem_cons_self) hclosed

/-- The symbols of the places that are looked at, in order. -/
def symbolsAt (language : Language) (text : Text) (places : List Place) : List Symbol :=
  (places.filter (·.visited language)).filterMap (·.symbol? language text)

theorem symbolsAt_cons {p : Place} (hopen : p.visited language) (places : List Place) :
    symbolsAt language text (p :: places) = (p.symbol? language text).toList ++ symbolsAt language text places := by
  rw [symbolsAt, List.filter_cons_of_pos hopen, List.filterMap_cons]
  cases p.symbol? language text <;> rfl

theorem symbolsAt_append (a b : List Place) :
    symbolsAt language text (a ++ b) = symbolsAt language text a ++ symbolsAt language text b := by
  rw [symbolsAt, List.filter_append, List.filterMap_append]
  rfl

mutual

/-- The walk over a tree finds the symbols of its places. -/
theorem collect_eq_symbolsAt : ∀ (node : Node) (around : List Node), (⟨node, around⟩ : Place).visited language →
    node.collect language text ((⟨node, around⟩ : Place).scopes language).length
      ((⟨node, around⟩ : Place).scope? language text) = symbolsAt language text (places around node)
  | mk kind named span links children, around, hopen => by
    have hstep := Place.collect_eq text hopen (mk kind named span links children)
    rw [hstep, places, symbolsAt_cons hopen]
    congr 1
    split
    · rename_i hclosed
      rw [symbolsAt, filter_visited_of_closed hclosed, List.filterMap_nil]
    · rename_i hclosed
      have hbelow := Place.visited_below hopen (mk kind named span links children)
      rw [Bool.eq_false_iff.2 hclosed, Bool.not_false] at hbelow
      exact collectAll_eq_symbolsAt children _ _ hbelow

theorem collectAll_eq_symbolsAt : ∀ (nodes around : List Node) (inner : Node),
    (⟨inner, around⟩ : Place).visited language →
    collectAll language text ((⟨inner, around⟩ : Place).scopes language).length
      ((⟨inner, around⟩ : Place).scope? language text) nodes = symbolsAt language text (placesAll around nodes)
  | [], around, inner, hopen => by
    rw [collectAll, placesAll]
    rfl
  | node :: rest, around, inner, hopen => by
    rw [collectAll, placesAll, symbolsAt_append, ← collectAll_eq_symbolsAt rest around inner hopen,
      ← collect_eq_symbolsAt node around hopen]
    rfl

end

end Node

/-- The walk over a whole tree finds the symbols of its places. -/
theorem SyntaxTree.collect_eq_symbolsAt (language : Language) (text : Text) (tree : SyntaxTree) :
    tree.root.collect language text 0 none = Node.symbolsAt language text (tree.root.places []) :=
  Node.collect_eq_symbolsAt tree.root [] rfl

theorem SyntaxTree.mem_symbols_iff_places {language : Language} {text : Text} {tree : SyntaxTree} {s : Symbol} :
    s ∈ tree.symbols language text ↔
      ∃ p ∈ tree.root.places [], p.visited language ∧ p.symbol? language text = some s := by
  rw [mem_symbols, collect_eq_symbolsAt, Node.symbolsAt, List.mem_filterMap]
  simp only [List.mem_filter, and_assoc]

/-- **The symbols of a tree are those of its places**, whatever the tree. Each node has one place, and what decides
whether a function there is a method is the kind of its first scope. -/
theorem SyntaxTree.symbols_perm_places (language : Language) (text : Text) (tree : SyntaxTree) :
    (tree.symbols language text).Perm
        (((tree.root.places []).filter (·.visited language)).filterMap (·.symbol? language text)) ∧
      (tree.root.places []).map (·.node) = tree.root.preorder ∧
      ∀ p : Place, p.visited language →
        Node.nearestKind language p.around = (p.scopes language).head?.bind (·.kind? language) := by
  have hwalk : tree.root.collect language text 0 none = Node.symbolsAt language text (tree.root.places []) :=
    Node.collect_eq_symbolsAt tree.root [] rfl
  refine ⟨?_, Node.map_node_places [] tree.root, fun _ hopen => Place.nearestKind_eq hopen⟩
  rw [SyntaxTree.symbols, hwalk]
  exact List.mergeSort_perm _ _

/-- A class with a decorated function. -/
def decoratedText : Text :=
  ['c', 'l', 'a', 's', 's', ' ', 'A', ':', '\n', ' ', '@', 'd', '\n', ' ', 'd', 'e', 'f', ' ', 'f', '(', ')', ':', ' ',
    '1', '\n']

def decoratedTree : SyntaxTree :=
  ⟨.mk "module" true ⟨0, 25⟩ {} [.mk "class_definition" true ⟨0, 24⟩ { name := some 0 }
    [.mk "identifier" true ⟨6, 7⟩ {} [], .mk "block" true ⟨10, 24⟩ {}
      [.mk "decorated_definition" true ⟨10, 24⟩ { definition := some 1 } [.mk "decorator" true ⟨10, 12⟩ {} [],
        .mk "function_definition" true ⟨14, 24⟩ { name := some 0 } [.mk "identifier" true ⟨18, 19⟩ {} []]]]]], false⟩

/-- The wrapper is passed over: the function in it is a method, and no deeper than the wrapper. -/
theorem symbols_perm_places_decorated : (decoratedTree.symbols .python decoratedText).Perm
    [⟨some "A", .classDef, 1, 3, ⟨0, 24⟩, 0, none⟩, ⟨some "f", .wrapped, 2, 3, ⟨10, 24⟩, 1, some "A"⟩,
      ⟨some "f", .method, 3, 3, ⟨14, 24⟩, 1, some "A"⟩] :=
  (SyntaxTree.symbols_perm_places .python decoratedText decoratedTree).1.trans (.of_eq (by decide +kernel))

end Chunkwise
