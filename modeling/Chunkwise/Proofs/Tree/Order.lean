import Chunkwise.Proofs.Tree.Nested
import Chunkwise.Proofs.Tree.Places

/-!
# The order of symbols

A node is known by the path to it (`Node.placeAt?`); the places of a tree are those of its paths, and none of them
comes before what is around it (`Node.pairwise_paths`). A symbol reads no later than the symbols under it, which it
encloses and is no deeper than (`Place.le_of_mem_under`), and sorting leaves symbols that read alike as they are
(`pairwise_mergeSort_ties`). The symbols of a tree are therefore in reading order, each before those of the nodes
under its own (`SyntaxTree.symbols_in_reading_order`).
-/

namespace Chunkwise

/-- A stable sort puts two members in the order of the sort, and those that are alike in the order of the list. -/
theorem pairwise_mergeSort_ties {α : Type} {le : α → α → Bool} {R : α → α → Prop} {l : List α}
    (htrans : ∀ a b c, le a b → le b c → le a c) (htotal : ∀ a b, le a b || le b a) (h : l.Pairwise R) :
    (l.mergeSort le).Pairwise fun a b => le a b ∧ (le b a → a = b ∨ R a b) := by
  rw [← List.mergeSort_zipIdx, List.pairwise_map]
  have hsorted := List.pairwise_mergeSort (List.zipIdxLE_trans htrans) (List.zipIdxLE_total htotal) l.zipIdx
  refine hsorted.imp_of_mem fun {a b} ha hb hab => ?_
  rw [List.mem_mergeSort, List.mem_zipIdx_iff_getElem?] at ha hb
  obtain ⟨hi, ha⟩ := List.getElem?_eq_some_iff.1 ha
  obtain ⟨hj, hb⟩ := List.getElem?_eq_some_iff.1 hb
  simp only [List.zipIdxLE] at hab
  split at hab
  · rename_i hle
    refine ⟨hle, fun hge => ?_⟩
    rw [if_pos hge, decide_eq_true_eq] at hab
    rcases Nat.lt_or_eq_of_le hab with hlt | heq
    · rw [← ha, ← hb]
      exact Or.inr (List.pairwise_iff_getElem.1 h a.2 b.2 hi hj hlt)
    · refine Or.inl ?_
      rw [← ha, ← hb]
      simp only [heq]
  · cases hab

namespace Symbol

variable {a b c : Symbol}

theorem le_iff : a.le b ↔ a.span.start < b.span.start ∨ (a.span.start = b.span.start ∧
    (b.span.stop < a.span.stop ∨ (b.span.stop = a.span.stop ∧ a.depth ≤ b.depth))) := by
  simp [le]

theorem le_refl (a : Symbol) : a.le a := le_iff.2 (by omega)

theorem le_trans (a b c : Symbol) (hab : a.le b) (hbc : b.le c) : a.le c := by
  rw [le_iff] at *
  omega

theorem le_total (a b : Symbol) : a.le b || b.le a := by
  rw [Bool.or_eq_true, le_iff, le_iff]
  omega

end Symbol

/-! ## What is under a place -/

namespace Place

/-- The places under a place. -/
def under (p : Place) : List Place := Node.placesAll (p.node :: p.around) p.node.children

theorem places_eq (p : Place) : Node.places p.around p.node = p :: p.under := by
  obtain ⟨⟨kind, named, span, links, children⟩, around⟩ := p
  rw [Node.places]
  rfl

end Place

namespace Node

variable {p : Place}

mutual

/-- The places under a place of a tree are places of the tree. -/
theorem places_subset_of_mem_places : ∀ {node : Node} {around : List Node}, p ∈ places around node →
    places p.around p.node ⊆ places around node
  | mk kind named span links children, around, h => by
    rw [places] at h
    rcases List.mem_cons.1 h with rfl | h
    · exact List.Subset.refl _
    · intro q hq
      rw [places]
      exact List.mem_cons_of_mem _ (places_subset_of_mem_placesAll h hq)

theorem places_subset_of_mem_placesAll : ∀ {nodes around : List Node}, p ∈ placesAll around nodes →
    places p.around p.node ⊆ placesAll around nodes
  | [], _, h => by
    rw [placesAll] at h
    cases h
  | node :: rest, around, h => by
    rw [placesAll] at h
    intro q hq
    rw [placesAll]
    rcases List.mem_append.1 h with h | h
    · exact List.mem_append_left _ (places_subset_of_mem_places h hq)
    · exact List.mem_append_right _ (places_subset_of_mem_placesAll h hq)

end

theorem preorder_subset_of_mem_places {node : Node} {around : List Node} (h : p ∈ places around node) :
    p.node.preorder ⊆ node.preorder := by
  rw [← map_node_places p.around, ← map_node_places around]
  exact List.map_subset _ (places_subset_of_mem_places h)

theorem placesAround_suffix {a b : List Node} (h : a <:+ b) : placesAround a <:+ placesAround b := by
  obtain ⟨inner, rfl⟩ := h
  induction inner with
  | nil => exact List.suffix_rfl
  | cons node inner ih => exact ih.trans (List.suffix_cons _ _)

end Node

namespace Place

variable {language : Language} {text : Text} {p q : Place} {s t : Symbol}

theorem suffix_of_mem_under (h : q ∈ p.under) : p.node :: p.around <:+ q.around := Node.suffix_of_mem_placesAll h

theorem mem_preorder_of_mem_under (h : q ∈ p.under) : q.node ∈ p.node.preorder := by
  have hnode : q.node ∈ Node.preorderAll p.node.children := by
    rw [← Node.map_node_placesAll (p.node :: p.around)]
    exact List.mem_map_of_mem h
  rw [Node.preorder_eq]
  exact List.mem_cons_of_mem _ hnode

/-- The scopes of a place are scopes of what is under it. -/
theorem scopes_suffix_of_mem_under (language : Language) (h : q ∈ p.under) : p.scopes language <:+ q.scopes language :=
  (Node.placesAround_suffix ((List.suffix_cons _ _).trans (suffix_of_mem_under h))).filter _

/-- What is under a definition is deeper. -/
theorem scopes_lt_of_mem_under {kind : SymbolKind} (h : q ∈ p.under) (hp : p.visited language)
    (hkind : p.kind? language = some kind) (hne : kind ≠ .wrapped) :
    (p.scopes language).length < (q.scopes language).length := by
  have hsuffix : (⟨q.node, p.node :: p.around⟩ : Place).scopes language <:+ q.scopes language :=
    (Node.placesAround_suffix (suffix_of_mem_under h)).filter _
  rw [scopes_cons hp, if_pos (by simp [hkind, hne])] at hsuffix
  exact hsuffix.length_le

theorem encloses_of_mem_under (hplaced : ∀ node ∈ p.node.preorder, node.Placed text) (h : q ∈ p.under) :
    p.node.span.encloses q.node.span :=
  Node.encloses_of_mem_preorder hplaced (mem_preorder_of_mem_under h)

theorem span_of_symbol? (h : p.symbol? language text = some s) : s.span = p.node.span := by
  obtain ⟨kind, -, rfl⟩ := Option.map_eq_some_iff.1 h
  rfl

theorem kind_of_symbol? (h : p.symbol? language text = some s) : p.kind? language = some s.kind := by
  obtain ⟨kind, hkind, rfl⟩ := Option.map_eq_some_iff.1 h
  exact hkind

theorem depth_of_symbol? (h : p.symbol? language text = some s) : s.depth = (p.scopes language).length := by
  obtain ⟨kind, -, rfl⟩ := Option.map_eq_some_iff.1 h
  rfl

/-- **A symbol reads no later than the symbols under it.** -/
theorem le_of_mem_under (hplaced : ∀ node ∈ p.node.preorder, node.Placed text) (h : q ∈ p.under)
    (hs : p.symbol? language text = some s) (ht : q.symbol? language text = some t) : s.le t := by
  have hspan := Span.encloses_iff.1 (encloses_of_mem_under hplaced h)
  have hdepth := (scopes_suffix_of_mem_under language h).length_le
  rw [Symbol.le_iff, span_of_symbol? hs, span_of_symbol? ht, depth_of_symbol? hs, depth_of_symbol? ht]
  omega

end Place

/-! ## Paths -/

namespace Node

mutual

/-- The paths to the nodes of a tree, each before those to the nodes under it: for each node on the way down its place
among its siblings. -/
def paths : Node → List (List Nat)
  | mk _ _ _ _ children => [] :: pathsFrom 0 children

/-- The paths to the nodes of trees that stand side by side, the first of them at a number. -/
def pathsFrom (first : Nat) : List Node → List (List Nat)
  | [] => []
  | node :: rest => (paths node).map (first :: ·) ++ pathsFrom (first + 1) rest

end

/-- The place that a path leads to, from a node that stands inside some nodes. -/
def placeAt? (around : List Node) (node : Node) : List Nat → Option Place
  | [] => some ⟨node, around⟩
  | i :: path => node.children[i]?.bind fun child => placeAt? (node :: around) child path

mutual

/-- The places of a tree are those that its paths lead to. -/
theorem map_placeAt?_paths (around : List Node) :
    ∀ node : Node, (paths node).map (placeAt? around node) = (places around node).map some
  | mk kind named span links children => by
    rw [paths, places, List.map_cons, List.map_cons,
      ← map_placeAt?_pathsFrom around (mk kind named span links children) [] children rfl]
    rfl

theorem map_placeAt?_pathsFrom (around : List Node) (outer : Node) :
    ∀ before nodes : List Node, outer.children = before ++ nodes →
      (pathsFrom before.length nodes).map (placeAt? around outer) = (placesAll (outer :: around) nodes).map some
  | _, [], _ => by
    rw [pathsFrom, placesAll]
    rfl
  | before, node :: rest, h => by
    have hchild : placeAt? around outer ∘ (before.length :: ·) = placeAt? (outer :: around) node := by
      funext path
      simp [placeAt?, h]
    have hrest := map_placeAt?_pathsFrom around outer (before ++ [node]) rest (by simp [h])
    rw [List.length_append] at hrest
    rw [pathsFrom, placesAll, List.map_append, List.map_append, List.map_map, hchild,
      map_placeAt?_paths (outer :: around) node]
    exact congrArg _ hrest

end

theorem exists_cons_of_mem_pathsFrom {first : Nat} {nodes : List Node} {path : List Nat}
    (h : path ∈ pathsFrom first nodes) : ∃ i rest, first ≤ i ∧ path = i :: rest := by
  induction nodes generalizing first with
  | nil =>
    rw [pathsFrom] at h
    cases h
  | cons node nodes ih =>
    rw [pathsFrom] at h
    rcases List.mem_append.1 h with h | h
    · obtain ⟨rest, -, rfl⟩ := List.mem_map.1 h
      exact ⟨first, rest, Nat.le_refl _, rfl⟩
    · obtain ⟨i, rest, hi, rfl⟩ := ih h
      exact ⟨i, rest, by omega, rfl⟩

mutual

/-- No path comes before one to a node around its own. -/
theorem pairwise_paths : ∀ node : Node, (paths node).Pairwise fun a b => ¬ b <+: a
  | mk kind named span links children => by
    rw [paths]
    refine List.pairwise_cons.2 ⟨fun path hpath hpre => ?_, pairwise_pathsFrom 0 children⟩
    obtain ⟨i, rest, -, rfl⟩ := exists_cons_of_mem_pathsFrom hpath
    exact List.cons_ne_nil _ _ (List.prefix_nil.1 hpre)

theorem pairwise_pathsFrom (first : Nat) : ∀ nodes : List Node, (pathsFrom first nodes).Pairwise fun a b => ¬ b <+: a
  | [] => List.Pairwise.nil
  | node :: rest => by
    rw [pathsFrom]
    refine List.pairwise_append.2 ⟨List.pairwise_map.2 ?_, pairwise_pathsFrom (first + 1) rest, ?_⟩
    · exact (pairwise_paths node).imp fun hab hpre => hab ((List.prefix_cons_inj first).1 hpre)
    · intro a ha b hb hpre
      obtain ⟨path, -, rfl⟩ := List.mem_map.1 ha
      obtain ⟨i, path', hi, rfl⟩ := exists_cons_of_mem_pathsFrom hb
      have heq := (List.cons_prefix_cons.1 hpre).1
      omega

end

variable {around nodes : List Node} {node child : Node} {path : List Nat} {p q : Place} {i : Nat}

theorem mem_pathsFrom (first : Nat) (hchild : nodes[i]? = some child) (h : path ∈ paths child) :
    (first + i) :: path ∈ pathsFrom first nodes := by
  induction nodes generalizing first i with
  | nil => cases hchild
  | cons node nodes ih =>
    rw [pathsFrom]
    cases i with
    | zero =>
      obtain rfl := Option.some.inj hchild
      exact List.mem_append_left _ (List.mem_map_of_mem h)
    | succ i =>
      have hrest : (first + 1 + i) :: path ∈ pathsFrom (first + 1) nodes := ih (first + 1) hchild
      rw [show first + 1 + i = first + (i + 1) by omega] at hrest
      exact List.mem_append_right _ hrest

theorem mem_placesAll (hchild : nodes[i]? = some child) (h : p ∈ places around child) : p ∈ placesAll around nodes := by
  induction nodes generalizing i with
  | nil => cases hchild
  | cons node nodes ih =>
    rw [placesAll]
    cases i with
    | zero =>
      obtain rfl := Option.some.inj hchild
      exact List.mem_append_left _ h
    | succ i => exact List.mem_append_right _ (ih hchild)

/-- A path that leads to a place is one of the paths of the tree, and the place one of its places. -/
theorem mem_of_placeAt? (h : placeAt? around node path = some p) : path ∈ paths node ∧ p ∈ places around node := by
  induction path generalizing around node with
  | nil =>
    obtain rfl := Option.some.inj h
    obtain ⟨kind, named, span, links, children⟩ := node
    rw [paths, places]
    exact ⟨List.mem_cons_self, List.mem_cons_self⟩
  | cons i path ih =>
    obtain ⟨child, hchild, h⟩ := Option.bind_eq_some_iff.1 h
    obtain ⟨hpath, hp⟩ := ih h
    have hpath := mem_pathsFrom 0 hchild hpath
    obtain ⟨kind, named, span, links, children⟩ := node
    rw [Nat.zero_add] at hpath
    rw [paths, places]
    exact ⟨List.mem_cons_of_mem _ hpath, List.mem_cons_of_mem _ (mem_placesAll hchild hp)⟩

theorem placeAt?_append (around : List Node) (node : Node) (path rest : List Nat) :
    placeAt? around node (path ++ rest) =
      (placeAt? around node path).bind fun p => placeAt? p.around p.node rest := by
  induction path generalizing around node with
  | nil => rfl
  | cons i path ih =>
    rw [List.cons_append, placeAt?, placeAt?, Option.bind_assoc]
    congr 1
    funext child
    exact ih _ _

/-- What a longer path leads to is under what the path leads to. -/
theorem mem_under_of_extends {path' : List Nat} (hp : placeAt? around node path = some p)
    (hq : placeAt? around node path' = some q) (hpre : path <+: path') (hne : path ≠ path') : q ∈ p.under := by
  obtain ⟨rest, rfl⟩ := hpre
  rw [placeAt?_append, hp, Option.bind_some] at hq
  cases rest with
  | nil => exact absurd (List.append_nil path).symm hne
  | cons i rest =>
    obtain ⟨child, hchild, hq⟩ := Option.bind_eq_some_iff.1 hq
    exact mem_placesAll hchild (mem_of_placeAt? hq).2

end Node

/-! ## Symbols by their paths -/

namespace SyntaxTree

variable (language : Language) (text : Text) (tree : SyntaxTree)

/-- The symbol of the node that a path leads to, if it is looked at and gives one. -/
def symbolAt? (path : List Nat) : Option Symbol :=
  ((tree.root.placeAt? [] path).filter (·.visited language)).bind (·.symbol? language text)

/-- The symbols in preorder, each with the path to its node. -/
def walked : List (List Nat × Symbol) :=
  tree.root.paths.filterMap fun path => (tree.symbolAt? language text path).map (path, ·)

/-- The symbols in reading order, each with the path to its node. -/
def listed : List (List Nat × Symbol) := (tree.walked language text).mergeSort fun a b => a.2.le b.2

/-- What it is for symbols with their paths to be in reading order. -/
structure InReadingOrder (entries : List (List Nat × Symbol)) : Prop where
  starts : entries.Pairwise fun a b => a.2.span.start ≤ b.2.span.start
  lines : entries.Pairwise fun a b => a.2.lineStart ≤ b.2.lineStart
  nested : entries.Pairwise fun a b => a.2.span.Nested b.2.span
  /-- What is around a node comes before it. -/
  outward : ∀ (i j : Nat) (a b : List Nat × Symbol), entries[i]? = some a → entries[j]? = some b →
    a.1 <+: b.1 → a.1 ≠ b.1 → i < j

variable {language text tree} {attachments : List String} {path path' : List Nat} {s t : Symbol}

theorem mem_walked : (path, s) ∈ tree.walked language text ↔ tree.symbolAt? language text path = some s := by
  rw [walked, List.mem_filterMap]
  constructor
  · rintro ⟨_, -, h⟩
    obtain ⟨_, hs, heq⟩ := Option.map_eq_some_iff.1 h
    obtain ⟨rfl, rfl⟩ := Prod.mk.inj heq
    exact hs
  · intro h
    obtain ⟨p, hp, -⟩ := Option.bind_eq_some_iff.1 h
    have hpath := (Node.mem_of_placeAt? (Option.filter_eq_some_iff.1 hp).1).1
    exact ⟨path, hpath, by rw [h]; rfl⟩

/-- The walk over a tree finds the symbols that its paths lead to. -/
theorem map_walked (language : Language) (text : Text) (tree : SyntaxTree) :
    (tree.walked language text).map (·.2) = tree.root.collect language text 0 none := by
  have hplaces : (tree.root.paths.map (tree.root.placeAt? [])).filterMap
      (fun place => (place.filter (·.visited language)).bind (·.symbol? language text)) =
        Node.symbolsAt language text (tree.root.places []) := by
    rw [Node.map_placeAt?_paths, List.filterMap_map, Node.symbolsAt, List.filterMap_filter]
    refine congrArg (List.filterMap · _) (funext fun p => ?_)
    cases hopen : p.visited language <;> simp [hopen, Option.filter_some]
  rw [collect_eq_symbolsAt, ← hplaces, walked, List.map_filterMap, List.filterMap_map]
  refine congrArg (List.filterMap · _) (funext fun path => ?_)
  simp [symbolAt?, Option.map_map, Function.comp_def]

theorem map_listed (language : Language) (text : Text) (tree : SyntaxTree) :
    (tree.listed language text).map (·.2) = tree.symbols language text := by
  rw [listed, symbols, ← map_walked]
  exact List.map_mergeSort fun _ _ _ _ => rfl

theorem mem_listed : (path, s) ∈ tree.listed language text ↔ tree.symbolAt? language text path = some s := by
  rw [listed, List.mem_mergeSort, mem_walked]

theorem WellFormed.placed_of_mem_places (h : tree.WellFormed text attachments) {p : Place}
    (hp : p ∈ tree.root.places []) : ∀ node ∈ p.node.preorder, node.Placed text :=
  fun node hnode => h.placed node (Node.preorder_subset_of_mem_places hp hnode)

/-- A symbol reads no later than those whose paths go on from its own. -/
theorem WellFormed.le_of_extends (h : tree.WellFormed text attachments)
    (hs : tree.symbolAt? language text path = some s) (ht : tree.symbolAt? language text path' = some t)
    (hpre : path <+: path') (hne : path ≠ path') : s.le t := by
  obtain ⟨p, hp, hs⟩ := Option.bind_eq_some_iff.1 hs
  obtain ⟨q, hq, ht⟩ := Option.bind_eq_some_iff.1 ht
  obtain ⟨hp, -⟩ := Option.filter_eq_some_iff.1 hp
  obtain ⟨hq, -⟩ := Option.filter_eq_some_iff.1 hq
  have hplaced := h.placed_of_mem_places (Node.mem_of_placeAt? hp).2
  exact Place.le_of_mem_under hplaced (Node.mem_under_of_extends hp hq hpre hne) hs ht

/-- No symbol comes before one around it in preorder. -/
theorem pairwise_walked (language : Language) (text : Text) (tree : SyntaxTree) :
    (tree.walked language text).Pairwise fun a b => ¬ b.1 <+: a.1 := by
  refine (Node.pairwise_paths tree.root).filterMap _ fun path path' hpaths a ha b hb => ?_
  obtain ⟨s, -, rfl⟩ := Option.map_eq_some_iff.1 ha
  obtain ⟨t, -, rfl⟩ := Option.map_eq_some_iff.1 hb
  exact hpaths

/-- Of two symbols in reading order the second is not around the first. -/
theorem WellFormed.pairwise_listed (h : tree.WellFormed text attachments) (language : Language) :
    (tree.listed language text).Pairwise fun a b => a.2.le b.2 ∧ (b.1 <+: a.1 → b.1 = a.1) := by
  have hties : (tree.listed language text).Pairwise fun a b => a.2.le b.2 ∧ (b.2.le a.2 → a = b ∨ ¬ b.1 <+: a.1) :=
    pairwise_mergeSort_ties (fun a b c => Symbol.le_trans a.2 b.2 c.2) (fun a b => Symbol.le_total a.2 b.2)
      (pairwise_walked language text tree)
  refine hties.imp_of_mem fun {a b} ha hb hab => ⟨hab.1, fun hpre => ?_⟩
  refine Decidable.byContradiction fun hne => ?_
  -- A symbol around the first would read no later, so that the two tie and stand as in the walk.
  have hle : b.2.le a.2 := h.le_of_extends (mem_listed.1 hb) (mem_listed.1 ha) hpre hne
  rcases hab.2 hle with rfl | hwalk
  · exact hne rfl
  · exact hwalk hpre

/-- Each path is listed once. -/
theorem nodup_listed (language : Language) (text : Text) (tree : SyntaxTree) :
    ((tree.listed language text).map (·.1)).Nodup := by
  have hwalked : ((tree.walked language text).map (·.1)).Nodup :=
    List.pairwise_map.2 ((pairwise_walked language text tree).imp fun hab heq =>
      hab ⟨[], (List.append_nil _).trans heq.symm⟩)
  exact ((List.mergeSort_perm _ _).map _).nodup_iff.2 hwalked

/-- A listed symbol is a symbol of the tree. -/
theorem snd_mem_symbols {entry : List Nat × Symbol} (h : entry ∈ tree.listed language text) :
    entry.2 ∈ tree.symbols language text := by
  rw [← map_listed]
  exact List.mem_map_of_mem h

/-- **The symbols of a tree are in reading order**, each before the symbols of the nodes under its own, whether or not
their spans differ. -/
theorem symbols_in_reading_order (h : tree.WellFormed text attachments) (language : Language) :
    (tree.listed language text).map (·.2) = tree.symbols language text ∧
      ((tree.listed language text).map (·.1)).Nodup ∧
      (∀ path s, (path, s) ∈ tree.listed language text ↔ tree.symbolAt? language text path = some s) ∧
      InReadingOrder (tree.listed language text) := by
  have hpairs := h.pairwise_listed language
  have hstarts : (tree.listed language text).Pairwise fun a b => a.2.span.start ≤ b.2.span.start :=
    hpairs.imp fun hab => by
      have hle := Symbol.le_iff.1 hab.1
      omega
  refine ⟨map_listed language text tree, nodup_listed language text tree, fun _ _ => mem_listed, hstarts, ?_, ?_, ?_⟩
  · refine hstarts.imp_of_mem fun ha hb hab => ?_
    obtain ⟨m, -, hm⟩ := exists_node_of_mem_symbols (snd_mem_symbols ha)
    obtain ⟨n, -, hn⟩ := exists_node_of_mem_symbols (snd_mem_symbols hb)
    rw [hm.span_eq, hn.span_eq] at hab
    rw [hm.lineStart_eq, hn.lineStart_eq]
    exact Nat.add_le_add_right (Text.rowAt_le_rowAt text hab) 1
  · exact hstarts.imp_of_mem fun ha hb _ => h.nested (snd_mem_symbols ha) (snd_mem_symbols hb)
  · intro i j a b ha hb hpre hne
    obtain ⟨hi, rfl⟩ := List.getElem?_eq_some_iff.1 ha
    obtain ⟨hj, rfl⟩ := List.getElem?_eq_some_iff.1 hb
    refine Nat.lt_of_not_le fun hji => ?_
    rcases Nat.lt_or_eq_of_le hji with hlt | rfl
    · exact hne ((List.pairwise_iff_getElem.1 hpairs j i hj hi hlt).2 hpre)
    · exact hne rfl

end SyntaxTree

/-- A definition in a wrapper that adds nothing to it. -/
def wrappedText : Text := ['d', 'e', 'f', ' ', 'f', '(', ')', ':', ' ', '1', '\n']

def wrappedTree : SyntaxTree :=
  ⟨.mk "module" true ⟨0, 11⟩ {}
    [.mk "decorated_definition" true ⟨0, 10⟩ { definition := some 0 }
      [.mk "function_definition" true ⟨0, 10⟩ { name := some 0 } [.mk "identifier" true ⟨4, 5⟩ {} []]]], false⟩

/-- The wrapper comes first, though it has the span and the depth of what it wraps. -/
theorem symbols_in_reading_order_wrapped :
    SyntaxTree.InReadingOrder (wrappedTree.listed .python wrappedText) ∧
      wrappedTree.listed .python wrappedText =
        [([0], ⟨some "f", .wrapped, 1, 1, ⟨0, 10⟩, 0, none⟩),
          ([0, 0], ⟨some "f", .function, 1, 1, ⟨0, 10⟩, 0, none⟩)] :=
  have hformed : wrappedTree.WellFormed wrappedText [] := by decide +kernel
  ⟨(SyntaxTree.symbols_in_reading_order hformed .python).2.2.2,
    (List.mergeSort_of_pairwise (by decide +kernel)).trans (by decide +kernel)⟩

end Chunkwise
