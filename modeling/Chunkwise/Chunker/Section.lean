import Chunkwise.Chunker.Plain
import Chunkwise.Grammar
import Chunkwise.Symbol.Vote
import Chunkwise.Total

/-!
# Cutting marked-up prose by its sections

A markdown document is cut at its sections, the outer ones first, then around its code blocks, which are kept
whole, and then by the separators of prose. Without its grammar it is cut by separators alone
(`markdown_of_not_loaded`).
-/

namespace Chunkwise
namespace Chunker

/-- The name under which chunks of this kind go. -/
def markdownName : String := "markdown_chunker"

/-- The deepest level that sections have for themselves; deeper ones share it. -/
def deepestSection : Nat := 5

/-- The cuts of a symbol: at the start of a section, around a code block. -/
def addSymbol (lines : LineTable) (plan : CutPlan) (s : Symbol) : CutPlan :=
  let start := lines.lineStart s.lineStart
  match s.kind with
  | .heading => plan.mark (min s.depth deepestSection) start
  | .codeBlock =>
    let stop := lines.lineEnd s.lineEnd
    ((plan.mark (deepestSection + 1) start).mark (deepestSection + 1) stop).keepWhole ⟨start, stop⟩
  | _ => plan

/-- The cuts that the symbols and the separators of a text allow. -/
def sectionPlan (text : Text) (symbols : List Symbol) : CutPlan :=
  Separator.addProse text (symbols.foldl (addSymbol (LineTable.ofText text)) {})

/-- Number of bytes of a span that lie in code blocks. -/
def codeBytes (symbols : List Symbol) (span : Span) : Nat :=
  totalOf (·.overlap span) (symbols.filter (·.kind == .codeBlock))

/-- Number of bytes of a span that count as prose: all but those of code blocks, if a section reaches into it. -/
def proseBytes (symbols : List Symbol) (span : Span) : Nat :=
  if symbols.any fun s => s.kind == .heading && 0 < s.overlap span then
    span.stop - span.start - codeBytes symbols span
  else 0

/-- What the symbols of a document say of a slice of it. -/
def sectionLabel (symbols : List Symbol) (span : Span) : Label :=
  { type := Vote.dominantKind [(.codeBlock, codeBytes symbols span), (.heading, proseBytes symbols span)]
    symbols := Symbol.namesIn (symbols.filter (·.kind == .heading)) span
    documented := true }

/-- The chunks of a markdown document. -/
def splitSections (parser : Parser) (grammars : Grammars) (document : Document) (strategy : Strategy) :
    Except Failure (List Chunk) :=
  if document.content.isBlank then .ok []
  else match grammars.parse parser .markdown document.content with
    | .error _ => plain.chunk document strategy
    | .ok tree =>
      let symbols := tree.symbols .markdown document.content
      let table := (sectionPlan document.content symbols).table document.content.byteLen
      cutWith table document strategy.maxChunkSize strategy.chunkOverlap Language.markdown.name markdownName
        (sectionLabel symbols)

/-- The chunker of markdown documents. -/
def markdown (parser : Parser) (grammars : Grammars) : Chunker :=
  { name := markdownName
    extensions := Language.markdown.extensions
    language := some .markdown
    chunk := splitSections parser grammars }

/-- Without its grammar a markdown document is cut by separators alone. -/
theorem markdown_of_not_loaded {parser : Parser} {grammars : Grammars} (h : ¬ grammars.isLoaded .markdown)
    (document : Document) (strategy : Strategy) :
    (markdown parser grammars).chunk document strategy = plain.chunk document strategy := by
  simp only [markdown, splitSections, Grammars.parse, if_neg h]
  split
  · rename_i hb
    simp [plain, splitPlain_of_isBlank hb]
  · rfl

end Chunker
end Chunkwise
