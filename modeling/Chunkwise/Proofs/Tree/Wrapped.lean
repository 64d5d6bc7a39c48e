import Chunkwise.Proofs.Tree.Order

/-!
# What a wrapper wraps

A wrapper names the child that it wraps; looking through further wrappers, that is a definition or nothing
(`Place.unwrapped?`). The definition is under the wrapper and has the definitions around it that the wrapper has
(`unwrapped?_spec`). The places of a tree are listed such that each one is followed by those under it, then by those
behind its end (`Node.pairwise_places`). The first definition under a wrapper is therefore the one that it wraps,
unless there are definitions in it beside that one (`Place.firstKind_eq_unwrappedKind`).
-/

namespace Chunkwise

/-- What is found first in a list comes before everything else that could have been found. -/
theorem eq_or_rel_of_find? {α : Type} {R : α → α → Prop} {l : List α} {test : α → Bool} {a b : α} (h : l.Pairwise R)
    (hfind : l.find? test = some a) (hb : b ∈ l) (htest : test b) : b = a ∨ R a b := by
  obtain ⟨before, after, rfl, hbefore⟩ := (List.find?_eq_some_iff_append.1 hfind).2
  rcases List.mem_append.1 hb with hb | hb
  · have hnot := hbefore b hb
    simp [htest] at hnot
  · rcases List.mem_cons.1 hb with rfl | hb
    · exact Or.inl rfl
    · exact Or.inr ((List.pairwise_cons.1 (List.pairwise_append.1 h).2.1).1 b hb)

/-- Whether a place gives a symbol that is neither a wrapper nor a comment or an attachment. -/
def Place.isDefinition (language : Language) (p : Place) : Bool :=
  p.visited language && (p.kind? language).any fun kind => kind != .wrapped && !kind.isLead

namespace Node

mutual

/-- The definition that a node inside some nodes is or wraps, looking through wrappers. -/
def unwrapped? (language : Language) (around : List Node) : Node → Option Place
  | mk kind named span links children =>
    let p : Place := ⟨mk kind named span links children, around⟩
    if p.kind? language = some .wrapped then
      match links.definition.or links.declaration with
      | some i => unwrappedAt? language (mk kind named span links children :: around) i children
      | none => none
    else if p.isDefinition language then some p else none

/-- The definition that the node at an index of a list is or wraps. -/
def unwrappedAt? (language : Language) (around : List Node) : Nat → List Node → Option Place
  | _, [] => none
  | 0, node :: _ => unwrapped? language around node
  | i + 1, _ :: rest => unwrappedAt? language around i rest

end

end Node

namespace Place

variable (language : Language) (p : Place)

/-- The definition that a place is or wraps, looking through wrappers. -/
def unwrapped? : Option Place := p.node.unwrapped? language p.around

/-- The kind of the definition that a place is or wraps; that of a value if there is none. -/
def unwrappedKind : SymbolKind := ((p.unwrapped? language).bind (·.kind? language)).getD .constant

/-- The kind of the first definition under a place; that of a value if there is none. -/
def firstKind : SymbolKind := ((p.under.find? (·.isDefinition language)).bind (·.kind? language)).getD .constant

variable {language p} {q d : Place} {text : Text}

theorem isDefinition_iff : p.isDefinition language ↔
    p.visited language ∧ ∃ kind, p.kind? language = some kind ∧ kind ≠ .wrapped ∧ ¬ kind.isLead := by
  simp [isDefinition, Option.any_eq_true]

/-- A definition has a symbol, which is not a wrapper. -/
theorem exists_symbol_of_isDefinition (h : p.isDefinition language) (text : Text) :
    ∃ s, p.symbol? language text = some s ∧ s.kind ≠ .wrapped := by
  obtain ⟨-, kind, hkind, hne, -⟩ := isDefinition_iff.1 h
  exact ⟨_, symbol?_eq hkind, hne⟩

/-- A definition wraps nothing, so that its kind is its own. -/
theorem unwrappedKind_of_isDefinition {kind : SymbolKind} (h : p.isDefinition language)
    (hkind : p.kind? language = some kind) : p.unwrappedKind language = kind := by
  obtain ⟨-, _, hkind', hne, -⟩ := isDefinition_iff.1 h
  have hself : p.unwrapped? language = some p := by
    obtain ⟨⟨nodeKind, named, span, links, children⟩, around⟩ := p
    rw [unwrapped?, Node.unwrapped?, if_neg (by simp [hkind', hne]), if_pos h]
  rw [unwrappedKind, hself, Option.bind_some, hkind, Option.getD_some]

/-- What is under a definition is deeper. -/
theorem scopes_lt_of_isDefinition (h : q ∈ p.under) (hp : p.isDefinition language) :
    (p.scopes language).length < (q.scopes language).length := by
  obtain ⟨hopen, _, hkind, hne, -⟩ := isDefinition_iff.1 hp
  exact scopes_lt_of_mem_under h hopen hkind hne

end Place

/-! ## The wrapped definition -/

namespace Node

variable {language : Language} {d : Place} {text : Text}

/-- A wrapper is not closed. -/
theorem isClosed_of_wrapped {p : Place} (h : p.kind? language = some .wrapped) : p.node.isClosed language = false := by
  refine Bool.eq_false_iff.2 fun hclosed => ?_
  by_cases hcomment : language.isComment p.node.kind || p.node.isDocstring language
  · rw [Place.kind?_of_comment hcomment] at h
    cases h
  · have hattached := (Bool.or_eq_true_iff.1 hclosed).resolve_left hcomment
    rw [Place.kind?_of_attachment hcomment hattached] at h
    cases h

mutual

/-- The definition that a node is or wraps is a place of its tree, with the definitions around it that the node has. -/
theorem unwrapped?_spec : ∀ {node : Node} {around : List Node}, (⟨node, around⟩ : Place).visited language →
    unwrapped? language around node = some d → d ∈ places around node ∧ d.isDefinition language ∧
      d.scopes language = (⟨node, around⟩ : Place).scopes language
  | mk kind named span links children, around, hopen, h => by
    rw [unwrapped?] at h
    rw [places]
    split at h
    · rename_i hwrapped
      split at h
      · rename_i i _
        have hbelow := Place.visited_below hopen (mk kind named span links children)
        rw [isClosed_of_wrapped hwrapped] at hbelow
        obtain ⟨hmem, hdef, hscopes⟩ := unwrappedAt?_spec hbelow h
        exact ⟨List.mem_cons_of_mem _ hmem, hdef, hscopes.trans
          (Place.below_of_not_scope [] hopen (Or.inr hwrapped) _).1⟩
      · cases h
    · split at h
      · rename_i hdef
        obtain rfl := Option.some.inj h
        exact ⟨List.mem_cons_self, hdef, rfl⟩
      · cases h

theorem unwrappedAt?_spec : ∀ {nodes around : List Node} {i : Nat} {inner : Node},
    (⟨inner, around⟩ : Place).visited language → unwrappedAt? language around i nodes = some d →
      d ∈ placesAll around nodes ∧ d.isDefinition language ∧
        d.scopes language = (⟨inner, around⟩ : Place).scopes language
  | [], _, _, _, _, h => by
    rw [unwrappedAt?] at h
    cases h
  | node :: _, around, 0, _, hopen, h => by
    rw [unwrappedAt?] at h
    have hnode : (⟨node, around⟩ : Place).visited language := hopen
    obtain ⟨hmem, hdef, hscopes⟩ := unwrapped?_spec hnode h
    rw [placesAll]
    exact ⟨List.mem_append_left _ hmem, hdef, hscopes⟩
  | _ :: rest, _, i + 1, _, hopen, h => by
    rw [unwrappedAt?] at h
    obtain ⟨hmem, hdef, hscopes⟩ := unwrappedAt?_spec hopen h
    rw [placesAll]
    exact ⟨List.mem_append_right _ hmem, hdef, hscopes⟩

end

end Node

namespace Place

variable {language : Language} {p q d : Place} {text : Text}

/-- The definition that a wrapper wraps is under it, with the definitions around it that the wrapper has. -/
theorem unwrapped?_spec (hopen : p.visited language) (hwrapped : p.kind? language = some .wrapped)
    (h : p.unwrapped? language = some d) :
    d ∈ p.under ∧ d.isDefinition language ∧ d.scopes language = p.scopes language := by
  obtain ⟨hmem, hdef, hscopes⟩ := Node.unwrapped?_spec hopen h
  rw [p.places_eq] at hmem
  rcases List.mem_cons.1 hmem with rfl | hmem
  · obtain ⟨-, kind, hkind, hne, -⟩ := isDefinition_iff.1 hdef
    exact absurd (Option.some.inj (hkind.symm.trans hwrapped)) hne
  · exact ⟨hmem, hdef, hscopes⟩

end Place

/-! ## The order of places -/

/-- Whether a place comes before another one in preorder: the other one is under it or behind its end. -/
def Place.Precedes (p q : Place) : Prop := q ∈ p.under ∨ p.node.span.stop ≤ q.node.span.start

namespace Node

variable {text : Text} {outer : Span}

mutual

/-- **Each place of a tree is followed by those under it, then by those behind its end.** -/
theorem pairwise_places : ∀ {node : Node} (around : List Node), (∀ n ∈ node.preorder, n.Placed text) →
    (places around node).Pairwise Place.Precedes
  | mk kind named span links children, around, hplaced => by
    rw [preorder] at hplaced
    have hroot := hplaced _ List.mem_cons_self
    rw [places]
    refine List.pairwise_cons.2 ⟨fun q hq => Or.inl hq, ?_⟩
    exact pairwise_placesAll _ (fun n hn => hplaced n (List.mem_cons_of_mem _ hn)) hroot.inOrder

theorem pairwise_placesAll : ∀ {nodes : List Node} {outer : Span} (around : List Node),
    (∀ n ∈ preorderAll nodes, n.Placed text) → InOrder outer (nodes.map span) →
      (placesAll around nodes).Pairwise Place.Precedes
  | [], _, around, _, _ => by
    rw [placesAll]
    exact List.Pairwise.nil
  | node :: rest, _, around, hplaced, horder => by
    have hnode : ∀ n ∈ node.preorder, n.Placed text := fun n hn => hplaced n (mem_preorderAll_cons.2 (Or.inl hn))
    have hrest : ∀ n ∈ preorderAll rest, n.Placed text := fun n hn => hplaced n (mem_preorderAll_cons.2 (Or.inr hn))
    rw [placesAll]
    refine List.pairwise_append.2
      ⟨pairwise_places around hnode, pairwise_placesAll around hrest horder.2.2.2, fun p hp q hq => Or.inr ?_⟩
    refine stop_le_start_of_mem hplaced horder ?_ ?_
    · rw [← map_node_places around]
      exact List.mem_map_of_mem hp
    · rw [← map_node_placesAll around]
      exact List.mem_map_of_mem hq

end

/-- Of two places of a tree one precedes the other. -/
theorem eq_or_precedes {node : Node} {around : List Node} {p q : Place} (hplaced : ∀ n ∈ node.preorder, n.Placed text)
    (hp : p ∈ places around node) (hq : q ∈ places around node) : p = q ∨ p.Precedes q ∨ q.Precedes p :=
  have hpairs := pairwise_places around hplaced
  List.Pairwise.forall_of_forall_of_flip (R := fun p q : Place => p = q ∨ p.Precedes q ∨ q.Precedes p)
    (fun _ _ => Or.inl rfl) (hpairs.imp fun h => Or.inr (Or.inl h)) (hpairs.imp fun h => Or.inr (Or.inr h)) hp hq

end Node

namespace Place

variable {language : Language} {p q d : Place} {text : Text}

/-- The first of the definitions under a place precedes the others. -/
theorem eq_or_precedes_of_find? (hplaced : ∀ n ∈ p.node.preorder, n.Placed text)
    (hfind : p.under.find? (·.isDefinition language) = some d) (hq : q ∈ p.under) (hdef : q.isDefinition language) :
    q = d ∨ d.Precedes q := by
  have hpairs := Node.pairwise_places p.around hplaced
  rw [p.places_eq] at hpairs
  exact eq_or_rel_of_find? (List.pairwise_cons.1 hpairs).2 hfind hq hdef

/-- The symbol of a definition that is not empty reads before those of the places that it precedes. -/
theorem not_le_of_precedes {s t : Symbol} (hplaced : ∀ n ∈ d.node.preorder, n.Placed text)
    (hdef : d.isDefinition language) (hsize : d.node.span.start < d.node.span.stop) (h : d.Precedes q)
    (hs : d.symbol? language text = some s) (ht : q.symbol? language text = some t) : ¬ t.le s := by
  rw [Symbol.le_iff, span_of_symbol? hs, span_of_symbol? ht, depth_of_symbol? hs, depth_of_symbol? ht]
  rcases h with hunder | hbehind
  · have hdeeper := scopes_lt_of_isDefinition hunder hdef
    have hspan := Span.encloses_iff.1 (encloses_of_mem_under hplaced hunder)
    omega
  · omega

/-- **The first definition under a wrapper is the one that it wraps**, if all definitions under it lie in that one. -/
theorem firstKind_eq_unwrappedKind (hplaced : ∀ n ∈ p.node.preorder, n.Placed text) (hopen : p.visited language)
    (hwrapped : p.kind? language = some .wrapped)
    (hsize : ∀ q ∈ p.under, q.isDefinition language → q.node.span.start < q.node.span.stop)
    (hinner : ∀ q ∈ p.under, q.isDefinition language →
      ∃ d, p.unwrapped? language = some d ∧ d.node.span.encloses q.node.span) :
    p.firstKind language = p.unwrappedKind language := by
  rw [firstKind, unwrappedKind]
  cases hfind : p.under.find? (·.isDefinition language) with
  | none =>
    cases hd : p.unwrapped? language with
    | none => rfl
    | some d =>
      obtain ⟨hmem, hdef, -⟩ := unwrapped?_spec hopen hwrapped hd
      exact absurd hdef (List.find?_eq_none.1 hfind d hmem)
  | some first =>
    have hfirst := List.mem_of_find?_eq_some hfind
    have hfirstdef : first.isDefinition language := List.find?_some hfind
    obtain ⟨d, hd, hencloses⟩ := hinner first hfirst hfirstdef
    obtain ⟨hmem, hdef, hscopes⟩ := unwrapped?_spec hopen hwrapped hd
    rcases eq_or_precedes_of_find? hplaced hfind hmem hdef with rfl | hunder | hbehind
    · rw [hd]
    · -- The wrapped definition is no deeper than the wrapper, and what is under the first definition is.
      have hdeeper := scopes_lt_of_isDefinition hunder hfirstdef
      have hsuffix := (scopes_suffix_of_mem_under language hfirst).length_le
      rw [hscopes] at hdeeper
      omega
    · have hlt := hsize first hfirst hfirstdef
      have hspan := Span.encloses_iff.1 hencloses
      omega

end Place
end Chunkwise
