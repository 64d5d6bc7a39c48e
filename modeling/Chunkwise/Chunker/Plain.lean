import Chunkwise.Chunker.Basic
import Chunkwise.Chunker.Fence
import Chunkwise.Chunker.Separator

/-!
# Cutting by separators

Any text can be cut by its separators, without a grammar. Marked-up prose is cut at its headings first, and its
fenced blocks are kept whole.

* `splitPlain_of_isBlank`: a blank document has no chunks.
-/

namespace Chunkwise
namespace Chunker

/-- The name under which chunks of this kind go. -/
def plainName : String := "fallback"

/-- The extensions of marked-up prose. -/
def markupExtensions : List String := ["md", "markdown", "mdx", "rst", "adoc", "asciidoc"]

/-- Whether a text is cut as marked-up prose: by its extension, or as plain text with a heading in it. -/
def isMarkup (ext : Option String) (text : Text) : Bool :=
  match ext with
  | none => false
  | some ext => markupExtensions.contains ext || (ext == "txt" && text.pieces.any Separator.isPlainHeading)

/-- The cuts around a fenced block, and none inside. -/
def addFence (plan : CutPlan) (block : Span) : CutPlan :=
  ((plan.mark Separator.headingLevels block.start).mark Separator.headingLevels block.stop).keepWhole block

/-- The cuts that the separators of a text allow. -/
def separatorPlan (text : Text) (markup : Bool) : CutPlan :=
  if markup then Separator.addProse text ((Fence.blocks text).foldl addFence (Separator.addHeadings text {}))
  else Separator.addCommon text 0 {}

/-- The name of the language that an extension stands for. -/
def languageName (ext : Option String) : String :=
  match ext.bind Language.ofExtension? with
  | some language => language.name
  | none => "text"

/-- The chunks of a document by separators alone, for sizes in characters. -/
def splitPlain (document : Document) (size overlap : Nat) : Except Failure (List Chunk) :=
  if document.content.isBlank then .ok []
  else
    let ext := document.extension?
    let plan := separatorPlan document.content (isMarkup ext document.content)
    cutWith (plan.table document.content.byteLen) document size overlap (languageName ext) plainName
      fun _ => ⟨.fallback, [], false⟩

/-- The chunker that works for every document. -/
def plain : Chunker :=
  { name := plainName
    extensions := []
    language := none
    chunk := fun document strategy => splitPlain document strategy.maxChunkSize strategy.chunkOverlap }

/-- A blank document has no chunks. -/
theorem splitPlain_of_isBlank {document : Document} (h : document.content.isBlank) (size overlap : Nat) :
    splitPlain document size overlap = .ok [] := by
  rw [splitPlain, if_pos h]

end Chunker
end Chunkwise
