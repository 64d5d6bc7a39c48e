import Chunkwise.Proofs.Chunker.Dominant
import Chunkwise.Proofs.Chunker.Kept
import Chunkwise.Proofs.Tree.Wrapped

/-!
# The kind that a wrapper counts as

A wrapper counts as the first symbol that lies in it in the text. For an outermost wrapper this is the symbol of the
first definition under it (`SyntaxTree.WellFormed.find?_code`): a definition around it would be outermost in its stead
(`Symbol.before_of_mem_outermostFrom`), and of two definitions the one that precedes the other reads first
(`Place.not_le_of_precedes`). The first definition is what the wrapper wraps if there is none beside that one
(`SyntaxTree.wrappers_count_as_first`), and need not be if it wraps a value
(`SyntaxTree.exported_value_counts_as_method`).
-/

namespace Chunkwise

namespace SyntaxTree

variable {tree : SyntaxTree} {language : Language} {text : Text} {attachments : List String}
variable {p q : Place} {s t : Symbol} {kind : SymbolKind}

/-- The symbols of a tree that are neither comments nor attachments, in reading order. -/
def code (language : Language) (text : Text) (tree : SyntaxTree) : List Symbol :=
  (tree.symbols language text).filter (!·.kind.isLead)

theorem pairwise_code (language : Language) (text : Text) (tree : SyntaxTree) :
    (tree.code language text).Pairwise fun a b => a.le b :=
  (List.pairwise_mergeSort Symbol.le_trans Symbol.le_total _).filter _

theorem mem_top_iff : (s, kind) ∈ (tree.outline language text).top ↔
    s ∈ Symbol.outermost (tree.code language text) ∧ kind = Outline.countedKind (tree.code language text) s := by
  constructor
  · intro h
    obtain ⟨_, hs, heq⟩ := List.mem_map.1 h
    obtain ⟨rfl, rfl⟩ := Prod.mk.inj heq
    exact ⟨hs, rfl⟩
  · rintro ⟨hs, rfl⟩
    exact List.mem_map.2 ⟨s, hs, rfl⟩

/-- The definitions of a tree are those of its symbols that are neither wrappers nor comments nor attachments. -/
theorem mem_code_iff (hne : s.kind ≠ .wrapped) : s ∈ tree.code language text ↔
    ∃ q ∈ tree.root.places [], q.isDefinition language ∧ q.symbol? language text = some s := by
  rw [code, List.mem_filter, mem_symbols_iff_places]
  constructor
  · rintro ⟨⟨q, hq, hopen, hs⟩, hlead⟩
    exact ⟨q, hq, Place.isDefinition_iff.2 ⟨hopen, _, Place.kind_of_symbol? hs, hne, by simpa using hlead⟩, hs⟩
  · rintro ⟨q, hq, hdef, hs⟩
    obtain ⟨hopen, kind, hkind, -, hlead⟩ := Place.isDefinition_iff.1 hdef
    obtain rfl := Option.some.inj (hkind.symm.trans (Place.kind_of_symbol? hs))
    exact ⟨⟨q, hq, hopen, hs⟩, by simpa using hlead⟩

/-- Whether the definitions of a tree take up some of its text. -/
def DefinitionsHaveSize (language : Language) (tree : SyntaxTree) : Prop :=
  ∀ q ∈ tree.root.places [], q.isDefinition language → q.node.span.start < q.node.span.stop

instance (language : Language) (tree : SyntaxTree) : Decidable (tree.DefinitionsHaveSize language) :=
  inferInstanceAs (Decidable (∀ q ∈ tree.root.places [], q.isDefinition language → _ < _))

/-- A definition inside an outermost wrapper is under it. -/
theorem WellFormed.mem_under_of_encloses (h : tree.WellFormed text attachments)
    (hsize : tree.DefinitionsHaveSize language) (hp : p ∈ tree.root.places [])
    (hs : p.symbol? language text = some s) (hwrapped : s.kind = .wrapped)
    (hout : s ∈ Symbol.outermost (tree.code language text)) (hq : q ∈ tree.root.places [])
    (hdef : q.isDefinition language) (hencloses : p.node.span.encloses q.node.span) : q ∈ p.under := by
  have hlt := hsize q hq hdef
  have hspan := Span.encloses_iff.1 hencloses
  obtain ⟨-, kind, hkind, hne, -⟩ := Place.isDefinition_iff.1 hdef
  rcases Node.eq_or_precedes h.placed hp hq with rfl | hprecedes | hprecedes
  · exact absurd (Option.some.inj (hkind.symm.trans ((Place.kind_of_symbol? hs).trans (congrArg some hwrapped)))) hne
  · rcases hprecedes with hunder | hbehind
    · exact hunder
    · omega
  · -- The symbol of a definition around the wrapper comes first, so that the wrapper would not be outermost.
    obtain ⟨t, ht, hne⟩ := Place.exists_symbol_of_isDefinition hdef text
    have hcode : t ∈ tree.code language text := (mem_code_iff hne).2 ⟨q, hq, hdef, ht⟩
    have hbefore := Place.not_le_of_precedes (h.placed_of_mem_places hq) hdef hlt hprecedes ht hs
    have hle : ∀ s ∈ tree.code language text, s.span.start ≤ s.span.stop := fun s hs =>
      (h.located (List.mem_filter.1 hs).1).start_le
    have hapart := Symbol.before_of_mem_outermostFrom hle (pairwise_code language text tree) hout hcode hbefore
    rw [Place.span_of_symbol? hs, Place.span_of_symbol? ht] at hapart
    omega

/-- The first symbol in reading order that satisfies a test reads no later than any other that does. -/
theorem le_of_find? {test : Symbol → Bool} (hfind : (tree.code language text).find? test = some s)
    (ht : t ∈ tree.code language text) (htest : test t) : s.le t := by
  rcases eq_or_rel_of_find? (pairwise_code language text tree) hfind ht htest with rfl | hle
  · exact Symbol.le_refl t
  · exact hle

/-- The first symbol inside an outermost wrapper is that of the first definition under it. -/
theorem WellFormed.find?_code (h : tree.WellFormed text attachments) (hsize : tree.DefinitionsHaveSize language)
    (hp : p ∈ tree.root.places []) (hs : p.symbol? language text = some s) (hwrapped : s.kind = .wrapped)
    (hout : s ∈ Symbol.outermost (tree.code language text)) :
    (tree.code language text).find? (fun t => t.kind != .wrapped && s.encloses t) =
      (p.under.find? (·.isDefinition language)).bind (·.symbol? language text) := by
  have hplaced := h.placed_of_mem_places hp
  have hinside : ∀ t ∈ tree.code language text, (t.kind != .wrapped && s.encloses t) = true →
      ∃ q ∈ p.under, q.isDefinition language ∧ q.symbol? language text = some t := by
    intro t ht htest
    rw [Bool.and_eq_true, bne_iff_ne, Symbol.encloses, Place.span_of_symbol? hs] at htest
    obtain ⟨q, hq, hdef, hqt⟩ := (mem_code_iff htest.1).1 ht
    rw [Place.span_of_symbol? hqt] at htest
    exact ⟨q, h.mem_under_of_encloses hsize hp hs hwrapped hout hq hdef htest.2, hdef, hqt⟩
  cases hfirst : p.under.find? (·.isDefinition language) with
  | none =>
    refine List.find?_eq_none.2 fun t ht htest => ?_
    obtain ⟨q, hq, hdef, -⟩ := hinside t ht htest
    exact List.find?_eq_none.1 hfirst q hq hdef
  | some d =>
    have hunder := List.mem_of_find?_eq_some hfirst
    have hdef : d.isDefinition language := List.find?_some hfirst
    have hd : d ∈ tree.root.places [] :=
      Node.places_subset_of_mem_places hp (by rw [p.places_eq]; exact List.mem_cons_of_mem _ hunder)
    obtain ⟨t, ht, hne⟩ := Place.exists_symbol_of_isDefinition hdef text
    have hcode := (mem_code_iff hne).2 ⟨d, hd, hdef, ht⟩
    have htest : (t.kind != .wrapped && s.encloses t) = true := by
      rw [Bool.and_eq_true, bne_iff_ne, Symbol.encloses, Place.span_of_symbol? hs, Place.span_of_symbol? ht]
      exact ⟨hne, Place.encloses_of_mem_under hplaced hunder⟩
    -- A symbol found before that one would be of a place that the definition precedes, and so read later.
    cases hfound : (tree.code language text).find? fun t => t.kind != .wrapped && s.encloses t with
    | none => exact absurd htest (List.find?_eq_none.1 hfound t hcode)
    | some found =>
      have hle := le_of_find? hfound hcode htest
      obtain ⟨q, hq, hqdef, hqt⟩ := hinside found (List.mem_of_find?_eq_some hfound) (List.find?_some hfound :)
      rcases Place.eq_or_precedes_of_find? hplaced hfirst hq hqdef with rfl | hprecedes
      · exact hqt.symm
      · have hlater := Place.not_le_of_precedes (h.placed_of_mem_places hd) hdef (hsize d hd hdef) hprecedes ht hqt
        exact absurd hle hlater

/-- **An outermost wrapper counts as the first definition under it.** -/
theorem WellFormed.countedKind_eq (h : tree.WellFormed text attachments) (hsize : tree.DefinitionsHaveSize language)
    (hp : p ∈ tree.root.places []) (hs : p.symbol? language text = some s) (hwrapped : s.kind = .wrapped)
    (hout : s ∈ Symbol.outermost (tree.code language text)) :
    Outline.countedKind (tree.code language text) s = p.firstKind language := by
  rw [Outline.countedKind, if_pos hwrapped, h.find?_code hsize hp hs hwrapped hout, Place.firstKind]
  cases hfirst : p.under.find? (·.isDefinition language) with
  | none => rfl
  | some d =>
    have hdef : d.isDefinition language := List.find?_some hfirst
    obtain ⟨t, ht, -⟩ := Place.exists_symbol_of_isDefinition hdef text
    rw [Option.bind_some, Option.bind_some, ht, Place.kind_of_symbol? ht]
    rfl

/-- **What a wrapper counts as**: the first definition under it, or a value if there is none; this is what it wraps if
all definitions under it lie in the one that it wraps. -/
theorem wrappers_count_as_first (h : tree.WellFormed text attachments) (hsize : tree.DefinitionsHaveSize language) :
    ∀ p ∈ tree.root.places [], p.visited language → ∀ s kind, p.symbol? language text = some s → s.kind = .wrapped →
      (s, kind) ∈ (tree.outline language text).top →
        kind = p.firstKind language ∧
          ((∀ q ∈ p.under, q.isDefinition language →
            ∃ d, p.unwrapped? language = some d ∧ d.node.span.encloses q.node.span) →
              kind = p.unwrappedKind language) := by
  intro p hp hopen s kind hs hwrapped htop
  obtain ⟨hout, rfl⟩ := mem_top_iff.1 htop
  have hfirst := h.countedKind_eq hsize hp hs hwrapped hout
  refine ⟨hfirst, fun hinner => hfirst.trans ?_⟩
  have hsub : p.under ⊆ tree.root.places [] := fun q hq =>
    Node.places_subset_of_mem_places hp (by rw [p.places_eq]; exact List.mem_cons_of_mem _ hq)
  exact Place.firstKind_eq_unwrappedKind (h.placed_of_mem_places hp) hopen
    ((Place.kind_of_symbol? hs).trans (congrArg some hwrapped)) (fun q hq => hsize q (hsub hq)) hinner

/-- A class with a method behind an export. -/
def exportedClassText : Text :=
  ['e', 'x', 'p', 'o', 'r', 't', ' ', 'c', 'l', 'a', 's', 's', ' ', 'K', '{', 'a', '(', ')', '{', '}', '}', '\n']

def exportedClass : Node :=
  .mk "export_statement" true ⟨0, 21⟩ { declaration := some 1 } [.mk "export" false ⟨0, 6⟩ {} [],
    .mk "class_declaration" true ⟨7, 21⟩ { name := some 0 } [.mk "identifier" true ⟨13, 14⟩ {} [],
      .mk "class_body" true ⟨14, 21⟩ {}
        [.mk "method_definition" true ⟨15, 20⟩ { name := some 0 } [.mk "property_identifier" true ⟨15, 16⟩ {} []]]]]

def exportedClassTree : SyntaxTree := ⟨.mk "program" true ⟨0, 22⟩ {} [exportedClass], false⟩

theorem symbols_exportedClassTree : exportedClassTree.symbols .javascript exportedClassText =
    [⟨some "K", .wrapped, 1, 1, ⟨0, 21⟩, 0, none⟩, ⟨some "K", .classDef, 1, 1, ⟨7, 21⟩, 0, none⟩,
      ⟨some "a", .method, 1, 1, ⟨15, 20⟩, 1, some "K"⟩] :=
  (symbols_eq_collect (by decide +kernel)).trans (by decide +kernel)

/-- The class comes before its method. -/
theorem wrappers_count_as_first_class :
    exportedClassTree.WellFormed exportedClassText [] ∧ exportedClassTree.DefinitionsHaveSize .javascript ∧
      (⟨some "K", .wrapped, 1, 1, ⟨0, 21⟩, 0, none⟩, .classDef) ∈
        (exportedClassTree.outline .javascript exportedClassText).top ∧
      .classDef = (⟨exportedClass, [exportedClassTree.root]⟩ : Place).unwrappedKind .javascript := by
  have hformed : exportedClassTree.WellFormed exportedClassText [] := by decide +kernel
  have hsize : exportedClassTree.DefinitionsHaveSize .javascript := by decide +kernel
  have htop : (⟨some "K", .wrapped, 1, 1, ⟨0, 21⟩, 0, none⟩, .classDef) ∈
      (exportedClassTree.outline .javascript exportedClassText).top := by
    rw [outline, symbols_exportedClassTree]
    decide +kernel
  have hplace : (⟨exportedClass, [exportedClassTree.root]⟩ : Place) ∈ exportedClassTree.root.places [] :=
    List.mem_cons_of_mem _ List.mem_cons_self
  have hfirst := wrappers_count_as_first hformed hsize _ hplace (by decide) _ _ (by decide +kernel) rfl htop
  exact ⟨hformed, hsize, htop, hfirst.2 (by decide +kernel)⟩

/-- A value with a method in it behind an export. -/
def exportedValueText : Text :=
  ['e', 'x', 'p', 'o', 'r', 't', ' ', 'c', 'o', 'n', 's', 't', ' ', 'o', '=', '{', 'm', '(', ')', '{', '}', '}', '\n']

def exportedValueTree : SyntaxTree :=
  ⟨.mk "program" true ⟨0, 23⟩ {} [.mk "export_statement" true ⟨0, 22⟩ { declaration := some 1 }
    [.mk "export" false ⟨0, 6⟩ {} [], .mk "lexical_declaration" true ⟨7, 22⟩ {}
      [.mk "variable_declarator" true ⟨13, 22⟩ { name := some 0 } [.mk "identifier" true ⟨13, 14⟩ {} [],
        .mk "object" true ⟨15, 22⟩ {} [.mk "method_definition" true ⟨16, 21⟩ { name := some 0 }
          [.mk "property_identifier" true ⟨16, 17⟩ {} []]]]]]], false⟩

def exportedValue : Symbol := ⟨some "o", .wrapped, 1, 1, ⟨0, 22⟩, 0, none⟩

/-- What is wrapped is a value, and the wrapper counts as a method: the method in the value is the first definition. -/
theorem exported_value_counts_as_method :
    exportedValueTree.WellFormed exportedValueText Language.javascript.attachmentKinds ∧
      exportedValueTree.DefinitionsHaveSize .javascript ∧
      (∃ p ∈ exportedValueTree.root.places [], p.visited .javascript ∧
        p.symbol? .javascript exportedValueText = some exportedValue ∧ (p.unwrapped? .javascript).isNone ∧
          p.unwrappedKind .javascript = .constant) ∧
      (exportedValueTree.outline .javascript exportedValueText).top = [(exportedValue, .method)] := by
  refine ⟨by decide, by decide +kernel, by decide +kernel, ?_⟩
  have hsymbols : exportedValueTree.symbols .javascript exportedValueText =
      [exportedValue, ⟨some "m", .method, 1, 1, ⟨16, 21⟩, 0, none⟩] :=
    (symbols_eq_collect (by decide +kernel)).trans (by decide +kernel)
  rw [outline, hsymbols]
  decide +kernel

end SyntaxTree
end Chunkwise
