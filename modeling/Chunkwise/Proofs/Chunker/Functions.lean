import Chunkwise.Proofs.Chunker.Members
import Chunkwise.Proofs.Chunker.Units

/-!
# Functions stay whole

With the flag for functions on, a function among the members of a unit is not cut, and neither is what stands in it
(`uncutBy_of_callable`). So each function is whole in a chunk that is such a member, or lies in one or in a unit that a
flag governs (`functions_stay_whole`). No other function is kept whole (`mem_solid_plan`): one that is nested deeper,
in members that are no functions themselves, can be cut (`nested_function_cut`).
-/

namespace Chunkwise

variable {o : Outline} {strategy : Strategy} {unit span : Span} {member : Symbol}

/-- No cut falls into a function among the members of a unit that no flag governs, as far as it is in the unit. -/
theorem Outline.uncutBy_of_callable (ho : o.lines = LineTable.ofText o.text) (hmethods : strategy.preserveMethods)
    {budget : Budget} {spans : List Span}
    (hcuts : ((o.plan strategy).table o.text.byteLen).cuts o.text budget = some spans) (hunit : unit ∈ o.units strategy)
    (hgoverned : ¬ o.Governed strategy unit) (hmember : member ∈ o.membersIn unit) (hlocated : member.Located o.text)
    (hcallable : member.kind.isCallable) (hspan : member.span.encloses span) (hinside : unit.encloses span) :
    span.UncutBy spans := by
  rcases Nat.lt_or_ge span.start span.stop with hlt | hempty
  · obtain ⟨hstart, hstop⟩ := memberSpan_encloses ho strategy hlocated hspan hinside
    have hsolid : o.memberSpan strategy unit member ∈ (o.plan strategy).solid :=
      mem_solid_plan.2 ⟨unit, hunit, .member hgoverned hmethods hmember hcallable, by omega⟩
    exact (CutTable.uncutBy_of_mem_solid (built_plan ho strategy).sliceOf_solid hcuts hsolid).mono hstart hstop
  · -- Nothing is inside an empty span.
    intro s _ hin
    omega

namespace Chunker

open SyntaxTree

/-- **What lies in a function among the members of its unit, or in a unit that a flag governs, is whole in a chunk**,
and no chunk ends inside it. -/
theorem functions_stay_whole (parser : Parser) (grammars : Grammars) (language : Language) (document : Document)
    (strategy : Strategy) (hloaded : grammars.isLoaded language)
    (hformed : (parser language document.content).WellFormed document.content language.attachmentKinds)
    (hmethods : strategy.preserveMethods) :
    ∃ chunks, (code parser grammars language).chunk document strategy = .ok chunks ∧
      ∀ unit ∈ ((parser language document.content).outline language document.content).units strategy,
        ∀ span : Span, unit.encloses span →
          (((parser language document.content).outline language document.content).Governed strategy unit ∨
            ∃ m ∈ ((parser language document.content).outline language document.content).membersIn unit,
              m.kind.isCallable ∧ m.span.encloses span) →
          span.UncutBy (chunks.map Chunk.span) ∧
            (document.content.HasInk span → span.WholeIn (chunks.map Chunk.span)) := by
  obtain ⟨chunks, hchunks, hspares⟩ := exists_chunks_of_outline strategy hloaded hformed
  refine ⟨chunks, hchunks, fun unit hunit span hinside hkept => hspares span fun spans hcuts => ?_⟩
  by_cases hgoverned : ((parser language document.content).outline language document.content).Governed strategy unit
  · simp only [Span.encloses, Bool.and_eq_true, decide_eq_true_eq] at hinside
    exact (Outline.uncutBy_of_mem_units rfl hcuts hunit (Or.inr hgoverned)).mono hinside.1 hinside.2
  · obtain ⟨m, hm, hcallable, hspan⟩ := hkept.resolve_left hgoverned
    have hlocated := hformed.located (Outline.mem_symbols_of_mem_membersIn hm)
    exact Outline.uncutBy_of_callable rfl hmethods hcuts hunit hgoverned hm hlocated hcallable hspan hinside

/-- Both methods of a class that may be split are longer than a chunk, and the first is whole in one. -/
theorem functions_stay_whole_methods :
    (methodsTree.WellFormed methodsText Language.python.attachmentKinds ∧ methodsStrategy.preserveMethods ∧
        methodsText.charsIn firstMethod.span = 10 ∧ methodsStrategy.maxChunkSize = 8) ∧
      ∃ chunks, (code (fun _ _ => methodsTree) (Grammars.ofLanguages [.python]) .python).chunk
          ⟨methodsText, { filePath := "a.py" }⟩ methodsStrategy = .ok chunks ∧
        firstMethod.span.UncutBy (chunks.map Chunk.span) ∧ firstMethod.span.WholeIn (chunks.map Chunk.span) := by
  have hunits : (methodsTree.outline .python methodsText).units methodsStrategy = [⟨0, 36⟩] := by
    rw [outline, symbols_methodsTree]
    decide +kernel
  have hunit : ⟨0, 36⟩ ∈ (methodsTree.outline .python methodsText).units methodsStrategy := by
    rw [hunits]
    exact List.mem_cons_self
  have hmember : firstMethod ∈ (methodsTree.outline .python methodsText).membersIn ⟨0, 36⟩ := by
    rw [membersIn_methodsTree]
    exact List.mem_cons_self
  obtain ⟨chunks, hchunks, hkept⟩ := functions_stay_whole (fun _ _ => methodsTree) (Grammars.ofLanguages [.python])
    .python ⟨methodsText, { filePath := "a.py" }⟩ methodsStrategy (by decide) methodsTree_wellFormed rfl
  obtain ⟨huncut, hwhole⟩ := hkept ⟨0, 36⟩ hunit firstMethod.span (by decide)
    (Or.inr ⟨firstMethod, hmember, by decide, by decide⟩)
  exact ⟨⟨methodsTree_wellFormed, rfl, by decide, rfl⟩, chunks, hchunks, huncut,
    hwhole ⟨(methodsText.drop 10).take 10, by decide, by decide⟩⟩

/-- A function in a module in a module. -/
def nestedText : Text :=
  ['m', 'o', 'd', ' ', 'a', ' ', '{', '\n', 'm', 'o', 'd', ' ', 'b', ' ', '{', '\n', 'f', 'n', ' ', 'c', '(', ')', ' ',
    '{', '}', '\n', '}', '\n', '}', '\n']

def nestedTree : SyntaxTree :=
  ⟨.mk "source_file" true ⟨0, 30⟩ {} [.mk "mod_item" true ⟨0, 29⟩ {} [.mk "declaration_list" true ⟨6, 29⟩ {}
    [.mk "mod_item" true ⟨8, 27⟩ {} [.mk "declaration_list" true ⟨14, 27⟩ {}
      [.mk "function_item" true ⟨16, 25⟩ {} []]]]]], false⟩

def nestedFunction : Symbol := ⟨none, .method, 3, 3, ⟨16, 25⟩, 2, none⟩

def nestedStrategy : Strategy := { maxChunkSize := 8, chunkOverlap := 0, preserveClasses := false }

theorem symbols_nestedTree : nestedTree.symbols .rust nestedText =
    [⟨none, .moduleDef, 1, 5, ⟨0, 29⟩, 0, none⟩, ⟨none, .moduleDef, 2, 4, ⟨8, 27⟩, 1, none⟩, nestedFunction] :=
  (symbols_eq_collect (by decide +kernel)).trans (by decide +kernel)

/-- A function two levels deep is split, though functions are to be kept whole. -/
theorem nested_function_cut :
    nestedTree.WellFormed nestedText Language.rust.attachmentKinds ∧ nestedStrategy.preserveMethods ∧
      nestedFunction ∈ nestedTree.symbols .rust nestedText ∧ nestedFunction.kind.isCallable ∧
      ∃ chunks, (code (fun _ _ => nestedTree) (Grammars.ofLanguages [.rust]) .rust).chunk
          ⟨nestedText, { filePath := "a.rs" }⟩ nestedStrategy = .ok chunks ∧
        ¬ nestedFunction.span.UncutBy (chunks.map Chunk.span) ∧
        ¬ nestedFunction.span.WholeIn (chunks.map Chunk.span) := by
  have hformed : nestedTree.WellFormed nestedText Language.rust.attachmentKinds := by decide
  have heval : (((nestedTree.outline .rust nestedText).plan nestedStrategy).table nestedText.byteLen).windows nestedText
      (Budget.ofSizes nestedStrategy.maxChunkSize nestedStrategy.chunkOverlap) =
        some [⟨⟨0, 8⟩, false⟩, ⟨⟨8, 16⟩, false⟩, ⟨⟨16, 24⟩, false⟩, ⟨⟨24, 30⟩, false⟩] := by
    rw [outline, symbols_nestedTree]
    decide +kernel
  have hloaded : (Grammars.ofLanguages [.rust]).isLoaded .rust := by decide
  obtain ⟨windows, chunks, hwindows, hchunks, hmap⟩ := exists_code_chunks (fun _ _ => nestedTree)
    ⟨nestedText, { filePath := "a.rs" }⟩ nestedStrategy hloaded hformed (by decide)
  obtain rfl := Option.some.inj (hwindows.symm.trans heval)
  refine ⟨hformed, rfl, ?_, by decide, chunks, hchunks, ?_, ?_⟩
  · rw [symbols_nestedTree]
    simp
  · rw [hmap]
    exact fun huncut => huncut ⟨16, 24⟩ (by simp) (by decide)
  · rw [hmap]
    rintro ⟨s, hs, hstart, hstop⟩
    simp only [List.map_cons, List.map_nil, List.mem_cons, List.not_mem_nil, or_false] at hs
    rcases hs with rfl | rfl | rfl | rfl <;> revert hstart hstop <;> decide

end Chunker
end Chunkwise
