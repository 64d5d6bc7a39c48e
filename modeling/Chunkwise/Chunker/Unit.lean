import Chunkwise.Chunker.Checked
import Chunkwise.Chunker.Plain
import Chunkwise.Grammar

/-!
# Cutting program text by its units

Program text of a language with a loaded grammar is cut by the outline that its tree gives. Without the grammar it
is cut by separators alone (`code_of_not_loaded`).
-/

namespace Chunkwise
namespace Chunker

/-- The name of the chunker of a language. -/
def codeName (language : Language) : String := language.name ++ "_chunker"

/-- The chunks of an outline, if every step of its plan can be made. -/
def splitOutline (language : Language) (outline : Outline) (document : Document) (strategy : Strategy) :
    Except Failure (List Chunk) :=
  match outline.plan? strategy with
  | some plan =>
    cutWith (plan.table document.content.byteLen) document strategy.maxChunkSize strategy.chunkOverlap language.name
      (codeName language) outline.label
  | none => .error (.breakdown none)

/-- The chunks of a program text. -/
def splitUnits (parser : Parser) (grammars : Grammars) (language : Language) (document : Document)
    (strategy : Strategy) : Except Failure (List Chunk) :=
  if document.content.isBlank then .ok []
  else match grammars.parse parser language document.content with
    | .error _ => plain.chunk document strategy
    | .ok tree =>
      splitOutline language (Outline.ofSymbols document.content (tree.symbols language document.content)) document
        strategy

/-- The chunker of the program texts of a language. -/
def code (parser : Parser) (grammars : Grammars) (language : Language) : Chunker :=
  { name := codeName language
    extensions := language.extensions
    language := some language
    chunk := splitUnits parser grammars language }

/-- Without its grammar a program text is cut by separators alone. -/
theorem code_of_not_loaded {parser : Parser} {grammars : Grammars} {language : Language}
    (h : ¬ grammars.isLoaded language) (document : Document) (strategy : Strategy) :
    (code parser grammars language).chunk document strategy = plain.chunk document strategy := by
  simp only [code, splitUnits, Grammars.parse, if_neg h]
  split
  · rename_i hb
    simp [plain, splitPlain_of_isBlank hb]
  · rfl

end Chunker
end Chunkwise
