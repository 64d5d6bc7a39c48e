import Chunkwise.Proofs.Chunker.Members
import Chunkwise.Proofs.Chunker.Plans
import Chunkwise.Proofs.Chunker.Wrappers

/-!
# Which members are kept whole

A unit that is split keeps its members whole that are of a kind that can be called, in the order in which they stand
(`Outline.solid_addUnit`). What is no wrapper has its own kind (`SyntaxTree.kindOf_of_mem_code`), and a wrapper, whose
kind can be called, is kept whatever it wraps (`SyntaxTree.members_kept_by_kind`): also around a class where classes may
be split (`SyntaxTree.exported_class_kept_whole`).
-/

namespace Chunkwise

namespace Outline

variable {o : Outline} {strategy : Strategy} {unit : Span} {member : Symbol} {members : List Symbol}

/-- What some of the members of a unit take up of it, each with its lead. -/
def memberSpans (o : Outline) (strategy : Strategy) (unit : Span) (test : Symbol → Bool) : List Span :=
  ((o.membersIn unit).filter test).map (o.memberSpan strategy unit)

theorem of_mem_membersIn (h : member ∈ o.membersIn unit) :
    member ∈ o.symbols ∧ unit.covers member.span.start ∧ !member.kind.isLead := by
  obtain ⟨hsymbol, hmember⟩ := List.mem_filter.1 (Symbol.mem_of_mem_outermost (List.mem_filter.1 h).1)
  simp only [Bool.and_eq_true] at hmember
  exact ⟨hsymbol, hmember.1.1, hmember.2⟩

/-- The members are kept in the order in which they are gone through. -/
theorem solid_foldl_addMember (plan : CutPlan) (hmethods : strategy.preserveMethods)
    (hlt : ∀ m ∈ members, (o.memberSpan strategy unit m).start < (o.memberSpan strategy unit m).stop) :
    (members.foldl (o.addMember strategy unit) plan).solid =
      ((members.filter (·.kind.isCallable)).map (o.memberSpan strategy unit)).reverse ++ plan.solid := by
  induction members generalizing plan with
  | nil => rfl
  | cons m members ih =>
    rw [List.foldl_cons, ih _ fun a ha => hlt a (List.mem_cons_of_mem _ ha), solid_addMember, hmethods, Bool.true_and,
      List.filter_cons]
    split
    · rw [CutPlan.solid_keepWhole, if_pos (hlt m List.mem_cons_self), List.map_cons, List.reverse_cons,
        List.append_assoc]
      rfl
    · rfl

theorem solid_addUnit (plan : CutPlan) (hmethods : strategy.preserveMethods) (hsplit : ¬ o.Governed strategy unit)
    (hlt : ∀ m ∈ o.membersIn unit, (o.memberSpan strategy unit m).start < (o.memberSpan strategy unit m).stop) :
    (o.addUnit strategy plan unit).solid =
      (o.memberSpans strategy unit (·.kind.isCallable)).reverse ++ plan.solid := by
  rw [addUnit, if_neg (mt keepsWhole_iff.1 hsplit)]
  have hmembers := solid_foldl_addMember plan hmethods hlt
  simp only
  split
  · exact hmembers
  · exact hmembers

end Outline

namespace SyntaxTree

variable {tree : SyntaxTree} {language : Language} {text : Text} {attachments : List String}

/-- The kind of the definition that the node of a symbol is or wraps, that of a value if there is none. What no node
gives is left as it is. -/
def kindOf (language : Language) (text : Text) (tree : SyntaxTree) (s : Symbol) : SymbolKind :=
  (((tree.root.places []).find? fun p => p.visited language && p.symbol? language text == some s).map
    (·.unwrappedKind language)).getD s.kind

/-- What is no wrapper has the kind that it seems to have. -/
theorem kindOf_of_mem_code {s : Symbol} (hs : s ∈ tree.code language text) (hne : s.kind ≠ .wrapped) :
    tree.kindOf language text s = s.kind := by
  obtain ⟨q, hq, hdef, hqs⟩ := (mem_code_iff hne).1 hs
  have hlead : ¬ s.kind.isLead := by simpa using (List.mem_filter.1 hs).2
  rw [kindOf]
  cases hfound : (tree.root.places []).find? fun p => p.visited language && p.symbol? language text == some s with
  | none =>
    have hnot := List.find?_eq_none.1 hfound q hq
    simp [hqs, (Place.isDefinition_iff.1 hdef).1] at hnot
  | some p =>
    have hp := List.find?_some hfound
    simp only [Bool.and_eq_true, beq_iff_eq] at hp
    have hkind := Place.kind_of_symbol? hp.2
    exact Place.unwrappedKind_of_isDefinition (Place.isDefinition_iff.2 ⟨hp.1, _, hkind, hne, hlead⟩) hkind

theorem mem_code_of_mem_membersIn {unit : Span} {member : Symbol}
    (h : member ∈ (tree.outline language text).membersIn unit) : member ∈ tree.code language text := by
  obtain ⟨hsymbol, -, hlead⟩ := Outline.of_mem_membersIn h
  exact List.mem_filter.2 ⟨hsymbol, hlead⟩

/-- What a member takes up of its unit is not empty. -/
theorem WellFormed.memberSpan_lt (h : tree.WellFormed text attachments) {strategy : Strategy} {unit : Span}
    {member : Symbol} (hunit : unit ∈ (tree.outline language text).units strategy)
    (hmember : member ∈ (tree.outline language text).membersIn unit) :
    ((tree.outline language text).memberSpan strategy unit member).start <
      ((tree.outline language text).memberSpan strategy unit member).stop := by
  obtain ⟨hsymbol, hcovers, -⟩ := Outline.of_mem_membersIn hmember
  obtain ⟨node, hnode, hmakes⟩ := exists_node_of_mem_symbols hsymbol
  rw [Span.covers_iff] at hcovers
  have hstart := Outline.memberStart_le (o := tree.outline language text) rfl strategy unit (h.located hsymbol)
  have hstop : unit.stop ≤ Text.byteLen text := by
    rcases (Outline.ends_of_mem_units hunit).2 with hlast | hpos
    · exact Nat.le_of_eq hlast
    · exact Nat.le_of_lt (Outline.unitStarts_lt hpos).2
  have hend := hmakes.start_lt_lineEnd (h.placed node hnode) (by omega)
  exact Nat.lt_of_le_of_lt (Nat.max_le.2 ⟨hstart, hcovers.1⟩) (Nat.lt_min.2 ⟨hend, hcovers.2⟩)

/-- **Of a unit that is split the members are kept whole that can be called or are wrappers**; those are the members
that can be called if no wrapper among them wraps anything else. -/
theorem members_kept_by_kind (hformed : tree.WellFormed text attachments) {strategy : Strategy}
    (hmethods : strategy.preserveMethods) {unit : Span} (hunit : unit ∈ (tree.outline language text).units strategy)
    (hsplit : ¬ (tree.outline language text).Governed strategy unit) (plan : CutPlan) :
    ((tree.outline language text).addUnit strategy plan unit).solid =
        ((tree.outline language text).memberSpans strategy unit fun m =>
          m.kind == .wrapped || (tree.kindOf language text m).isCallable).reverse ++ plan.solid ∧
      ((∀ m ∈ (tree.outline language text).membersIn unit, m.kind = .wrapped →
          (tree.kindOf language text m).isCallable) →
        ((tree.outline language text).addUnit strategy plan unit).solid =
          ((tree.outline language text).memberSpans strategy unit fun m =>
            (tree.kindOf language text m).isCallable).reverse ++ plan.solid) := by
  have hsolid := Outline.solid_addUnit plan hmethods hsplit fun m hm => hformed.memberSpan_lt hunit hm
  have hkinds : ∀ m ∈ (tree.outline language text).membersIn unit,
      m.kind.isCallable = (m.kind == .wrapped || (tree.kindOf language text m).isCallable) := by
    intro m hm
    by_cases hwrapped : m.kind = .wrapped
    · simp [hwrapped, SymbolKind.isCallable]
    · rw [kindOf_of_mem_code (mem_code_of_mem_membersIn hm) hwrapped, beq_false_of_ne hwrapped, Bool.false_or]
  rw [hsolid, Outline.memberSpans, List.filter_congr hkinds]
  refine ⟨rfl, fun hwrappers => ?_⟩
  rw [Outline.memberSpans, List.filter_congr fun m hm => ?_]
  by_cases hwrapped : m.kind = .wrapped
  · simp [hwrapped, hwrappers m hm hwrapped]
  · rw [beq_false_of_ne hwrapped, Bool.false_or]

theorem symbols_decoratedTree : decoratedTree.symbols .python decoratedText =
    [⟨some "A", .classDef, 1, 3, ⟨0, 24⟩, 0, none⟩, ⟨some "f", .wrapped, 2, 3, ⟨10, 24⟩, 1, some "A"⟩,
      ⟨some "f", .method, 3, 3, ⟨14, 24⟩, 1, some "A"⟩] :=
  (symbols_eq_collect (by decide +kernel)).trans (by decide +kernel)

/-- The only member is a wrapper around a method. -/
theorem members_kept_by_kind_decorated :
    decoratedTree.WellFormed decoratedText [] ∧
      ¬ (decoratedTree.outline .python decoratedText).Governed methodsStrategy ⟨0, 25⟩ ∧
      ((decoratedTree.outline .python decoratedText).addUnit methodsStrategy {} ⟨0, 25⟩).solid = [⟨9, 25⟩] := by
  have hformed : decoratedTree.WellFormed decoratedText [] := by decide +kernel
  have hunit : ⟨0, 25⟩ ∈ (decoratedTree.outline .python decoratedText).units methodsStrategy := by
    rw [outline, symbols_decoratedTree]
    decide +kernel
  have hsplit : ¬ (decoratedTree.outline .python decoratedText).Governed methodsStrategy ⟨0, 25⟩ := by
    rw [← Outline.keepsWhole_iff, outline, symbols_decoratedTree]
    decide +kernel
  have hwrappers : ∀ m ∈ (decoratedTree.outline .python decoratedText).membersIn ⟨0, 25⟩, m.kind = .wrapped →
      (decoratedTree.kindOf .python decoratedText m).isCallable := by
    rw [outline, symbols_decoratedTree]
    decide +kernel
  refine ⟨hformed, hsplit, ((members_kept_by_kind hformed rfl hunit hsplit {}).2 hwrappers).trans ?_⟩
  rw [outline, symbols_decoratedTree]
  decide +kernel

/-- An exported class in a namespace. -/
def namespaceText : Text :=
  ['n', 'a', 'm', 'e', 's', 'p', 'a', 'c', 'e', ' ', 'N', '{', '\n', 'e', 'x', 'p', 'o', 'r', 't', ' ', 'c', 'l', 'a',
   's', 's', ' ', 'K', '{', '}', '\n', '}', '\n']

def namespaceTree : SyntaxTree :=
  ⟨.mk "program" true ⟨0, 32⟩ {} [.mk "internal_module" true ⟨0, 31⟩ { name := some 0 }
    [.mk "identifier" true ⟨10, 11⟩ {} [], .mk "statement_block" true ⟨11, 31⟩ {}
      [.mk "export_statement" true ⟨13, 29⟩ { declaration := some 1 } [.mk "export" false ⟨13, 19⟩ {} [],
        .mk "class_declaration" true ⟨20, 29⟩ { name := some 0 } [.mk "type_identifier" true ⟨26, 27⟩ {} []]]]]], false⟩

def exportedMember : Symbol := ⟨some "K", .wrapped, 2, 2, ⟨13, 29⟩, 1, some "N"⟩

theorem symbols_namespaceTree : namespaceTree.symbols .typescript namespaceText =
    [⟨some "N", .moduleDef, 1, 3, ⟨0, 31⟩, 0, none⟩, exportedMember,
      ⟨some "K", .classDef, 2, 2, ⟨20, 29⟩, 1, some "N"⟩] :=
  (symbols_eq_collect (by decide +kernel)).trans (by decide +kernel)

/-- The exported class is kept whole, though containers may be cut and a class cannot be called. -/
theorem exported_class_kept_whole :
    namespaceTree.WellFormed namespaceText Language.typescript.attachmentKinds ∧
      methodsStrategy.preserveMethods ∧ methodsStrategy.preserveClasses = false ∧
      ⟨0, 32⟩ ∈ (namespaceTree.outline .typescript namespaceText).units methodsStrategy ∧
      ¬ (namespaceTree.outline .typescript namespaceText).Governed methodsStrategy ⟨0, 32⟩ ∧
      (namespaceTree.outline .typescript namespaceText).membersIn ⟨0, 32⟩ = [exportedMember] ∧
      namespaceTree.kindOf .typescript namespaceText exportedMember = .classDef ∧
      ¬ SymbolKind.classDef.isCallable ∧
      ((namespaceTree.outline .typescript namespaceText).addUnit methodsStrategy {} ⟨0, 32⟩).solid = [⟨13, 30⟩] := by
  refine ⟨by decide, rfl, rfl, ?_, ?_, ?_, by decide +kernel, by decide, ?_⟩
  · rw [outline, symbols_namespaceTree]
    decide +kernel
  · rw [← Outline.keepsWhole_iff, outline, symbols_namespaceTree]
    decide +kernel
  · rw [outline, symbols_namespaceTree]
    decide +kernel
  · rw [outline, symbols_namespaceTree]
    decide +kernel

end SyntaxTree
end Chunkwise
