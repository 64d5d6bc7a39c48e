import Chunkwise.Proofs.Chunk.Assemble
import Chunkwise.Proofs.Chunker.Plans
import Chunkwise.Proofs.Tree.Symbols
import Chunkwise.Proofs.Window.Whole

/-!
# Fenced code stays whole

Two chunkers know of fenced code, and find it in different ways: by the fences among the lines of a text
(`Fence.blocks`), and by the code blocks of a tree, in whole lines (`Symbol.lines`). Both ask for it to be kept whole
(`mem_solid_separatorPlan`, `mem_solid_sectionPlan`). A block of lines begins with a fence, so that it is never blank
(`Fence.hasInk_of_mem_blocks`). What is kept whole is not cut by the chunks of a plan, and is whole in one of them unless
it is blank (`exists_chunks_keeping`): neither chunker ever splits fenced code (`fences_stay_whole`).
-/

namespace Chunkwise

variable {text : Text} {span block : Span} {document : Document}

/-! ## Fences -/

namespace Fence

theorem IsFenceLine.not_isBlank {line : Text} (h : IsFenceLine line) : ¬ line.isBlank := by
  obtain ⟨fence, rest, hmarker, hrun, -, k, -, rfl⟩ := h
  intro hblank
  have hmem : fence.marker ∈ List.replicate fence.run fence.marker := List.mem_replicate.2 ⟨by omega, rfl⟩
  have hc : isBlankChar fence.marker :=
    List.all_eq_true.1 hblank _ (List.mem_append_right _ (List.mem_append_left _ hmem))
  rcases hmarker with htick | htilde
  · rw [isBlankChar, htick] at hc
    exact absurd hc (by decide)
  · rw [htilde] at hc
    exact absurd hc (by decide)

/-- **A fenced block is not blank**: it begins with its fence. -/
theorem hasInk_of_mem_blocks (h : block ∈ blocks text) : text.HasInk block := by
  have hends := isBoundary_of_mem_blocks h
  obtain ⟨line, hline, hfence, hstop⟩ := (fenced_blocks text).exists_first (laid_locatedLines text) h
  have hink : text.HasInk ⟨block.start, block.start + line.byteLen⟩ :=
    ⟨line, Text.slice?_of_mem_locatedLines hline, hfence.not_isBlank⟩
  exact hink.mono hends.1 hends.2 (Nat.le_refl _) hstop

end Fence

/-! ## Plans -/

namespace Chunker

theorem solid_addProse (text : Text) (plan : CutPlan) : (Separator.addProse text plan).solid = plan.solid := rfl

/-- Separators keep the fenced blocks of marked-up prose whole. -/
theorem mem_solid_separatorPlan (h : block ∈ Fence.blocks text) : block ∈ (separatorPlan text true).solid := by
  have hadd : ∀ plan fence, block ∈ (addFence plan fence).solid ↔
      block ∈ plan.solid ∨ (block = fence ∧ block.start < block.stop) := by
    intro plan fence
    rw [addFence, CutPlan.mem_solid_keepWhole]
    rfl
  rw [separatorPlan, if_pos rfl, solid_addProse]
  exact (CutPlan.foldl_iff (Q := fun plan => block ∈ plan.solid) hadd _ (Fence.blocks text)).2
    (Or.inr ⟨block, h, rfl, (Fence.hasInk_of_mem_blocks h).lt⟩)

end Chunker

/-- The whole lines of a symbol. -/
def Symbol.lines (text : Text) (s : Symbol) : Span :=
  ⟨(LineTable.ofText text).lineStart s.lineStart, (LineTable.ofText text).lineEnd s.lineEnd⟩

theorem Symbol.Located.hasInk_lines {s : Symbol} (h : s.Located text) (hink : text.HasInk s.span) :
    text.HasInk (s.lines text) :=
  hink.mono (Text.isBoundary_lineStart text _) (Text.isBoundary_lineEnd text _) h.lineStart_le h.le_lineEnd

namespace Chunker

/-- Sections keep the lines of code blocks whole. -/
theorem mem_solid_sectionPlan {symbols : List Symbol} {s : Symbol} (hs : s ∈ symbols) (hkind : s.kind = .codeBlock)
    (hlt : (s.lines text).start < (s.lines text).stop) : s.lines text ∈ (sectionPlan text symbols).solid := by
  have hadd : ∀ plan t, s.lines text ∈ (addSymbol (LineTable.ofText text) plan t).solid ↔
      s.lines text ∈ plan.solid ∨
        (t.kind = .codeBlock ∧ s.lines text = t.lines text ∧ (s.lines text).start < (s.lines text).stop) := by
    intro plan t
    rw [addSymbol]
    split
    · rename_i hheading
      simp [hheading, CutPlan.mark]
    · rename_i hblock
      rw [CutPlan.mem_solid_keepWhole]
      simp only [hblock, true_and]
      rfl
    · rename_i hnot
      refine (or_iff_left ?_).symm
      rintro ⟨hblock, -⟩
      exact hnot hblock
  rw [sectionPlan, solid_addProse]
  exact (CutPlan.foldl_iff (Q := fun plan => s.lines text ∈ plan.solid) hadd _ symbols).2
    (Or.inr ⟨s, hs, hkind, rfl, hlt⟩)

/-! ## Chunks -/

/-- What a plan keeps whole is not cut by its chunks, and is whole in one of them if there is something in it. -/
theorem exists_chunks_keeping {plan : CutPlan} (h : plan.Built document.content) (size overlap : Nat)
    (language chunker : String) (label : Span → Label) :
    ∃ chunks, cutWith (plan.table document.content.byteLen) document size overlap language chunker label = .ok chunks ∧
      ∀ span ∈ plan.solid, span.UncutBy (chunks.map Chunk.span) ∧
        (document.content.HasInk span → span.WholeIn (chunks.map Chunk.span)) := by
  obtain ⟨windows, chunks, hwindows, hchunks, hmap, -⟩ := exists_cutWith h.fits size overlap language chunker label
  obtain ⟨cuts, hcuts, rfl⟩ := CutTable.exists_cuts_of_windows hwindows
  refine ⟨chunks, hchunks, fun span hspan => ?_⟩
  rw [Chunk.map_span_of_map_window hmap]
  exact CutTable.uncut_and_whole hcuts (CutTable.uncutBy_of_mem_solid h.sliceOf_solid hcuts hspan)

/-- **Fenced code is never split**: not by separators in marked-up prose, nor by the sections of a well-formed tree. -/
theorem fences_stay_whole :
    (∀ (document : Document) (size overlap : Nat), isMarkup document.extension? document.content →
      ∃ chunks, splitPlain document size overlap = .ok chunks ∧
        ∀ block ∈ Fence.blocks document.content,
          block.UncutBy (chunks.map Chunk.span) ∧ block.WholeIn (chunks.map Chunk.span)) ∧
      ∀ (parser : Parser) (grammars : Grammars) (document : Document) (strategy : Strategy),
        grammars.isLoaded .markdown →
        (parser .markdown document.content).WellFormed document.content Language.markdown.attachmentKinds →
        ∃ chunks, (markdown parser grammars).chunk document strategy = .ok chunks ∧
          ∀ s ∈ (parser .markdown document.content).symbols .markdown document.content, s.kind = .codeBlock →
            document.content.HasInk s.span →
            (s.lines document.content).UncutBy (chunks.map Chunk.span) ∧
              (s.lines document.content).WholeIn (chunks.map Chunk.span) := by
  constructor
  · intro document size overlap hmarkup
    rw [splitPlain]
    split
    · rename_i hblank
      refine ⟨[], rfl, fun block hblock => ?_⟩
      exact absurd (Fence.hasInk_of_mem_blocks hblock) (Text.not_hasInk_of_isBlank hblank)
    · obtain ⟨chunks, hchunks, hkept⟩ := exists_chunks_keeping (built_separatorPlan document.content true) size overlap
        (languageName document.extension?) plainName fun _ => ⟨.fallback, [], false⟩
      refine ⟨chunks, ?_, fun block hblock => ?_⟩
      · simp only [hmarkup]
        exact hchunks
      · obtain ⟨huncut, hwhole⟩ := hkept block (mem_solid_separatorPlan hblock)
        exact ⟨huncut, hwhole (Fence.hasInk_of_mem_blocks hblock)⟩
  · intro parser grammars document strategy hloaded hformed
    simp only [markdown, splitSections, Grammars.parse, if_pos hloaded]
    split
    · rename_i hblank
      refine ⟨[], rfl, fun s _ _ hink => ?_⟩
      exact absurd hink (Text.not_hasInk_of_isBlank hblank)
    · obtain ⟨chunks, hchunks, hkept⟩ := exists_chunks_keeping
        (built_sectionPlan document.content ((parser .markdown document.content).symbols .markdown document.content))
        strategy.maxChunkSize strategy.chunkOverlap Language.markdown.name markdownName
        (sectionLabel ((parser .markdown document.content).symbols .markdown document.content))
      refine ⟨chunks, hchunks, fun s hs hkind hink => ?_⟩
      have hlines := (hformed.located hs).hasInk_lines hink
      obtain ⟨huncut, hwhole⟩ := hkept _ (mem_solid_sectionPlan hs hkind hlines.lt)
      exact ⟨huncut, hwhole hlines⟩

/-- Two paragraphs and a line in a fence, and a line behind it. -/
def fencedText : Text := ['~', '~', '~', '\n', 'a', '\n', '\n', '-', ' ', 'b', '\n', '~', '~', '~', '\n', 'c', '\n']

def fencedDocument : Document := ⟨fencedText, { filePath := "a.md" }⟩

def fencedTree : SyntaxTree :=
  ⟨.mk "document" true ⟨0, 17⟩ {} [.mk "section" true ⟨0, 17⟩ {} [.mk "fenced_code_block" true ⟨0, 15⟩ {} [],
    .mk "paragraph" true ⟨15, 17⟩ {} []]], false⟩

def fencedBlock : Symbol := ⟨none, .codeBlock, 1, 5, ⟨0, 15⟩, 1, none⟩

/-- The fence takes fifteen characters, and both chunkers keep it whole for a budget of one. -/
theorem fences_stay_whole_paragraphs :
    (isMarkup fencedDocument.extension? fencedText ∧ Fence.blocks fencedText = [⟨0, 15⟩] ∧
        ∃ chunks, splitPlain fencedDocument 1 0 = .ok chunks ∧ Span.WholeIn ⟨0, 15⟩ (chunks.map Chunk.span)) ∧
      fencedTree.WellFormed fencedText Language.markdown.attachmentKinds ∧
        fencedBlock ∈ fencedTree.symbols .markdown fencedText ∧ fencedText.HasInk fencedBlock.span ∧
        ∃ chunks, (markdown (fun _ _ => fencedTree) (Grammars.ofLanguages [.markdown])).chunk fencedDocument
            { maxChunkSize := 1, chunkOverlap := 0 } = .ok chunks ∧
          Span.WholeIn (fencedBlock.lines fencedText) (chunks.map Chunk.span) := by
  have hblocks : Fence.blocks fencedText = [⟨0, 15⟩] := by decide
  have hmarkup : isMarkup fencedDocument.extension? fencedText := by decide
  have hformed : fencedTree.WellFormed fencedText Language.markdown.attachmentKinds := by decide
  have hsymbols : fencedTree.symbols .markdown fencedText =
      [⟨none, .heading, 1, 6, ⟨0, 17⟩, 0, none⟩, fencedBlock] :=
    (SyntaxTree.symbols_eq_collect (by decide +kernel)).trans (by decide +kernel)
  have hmem : fencedBlock ∈ fencedTree.symbols .markdown fencedText := by
    rw [hsymbols]
    exact List.mem_cons_of_mem _ List.mem_cons_self
  have hink : fencedText.HasInk fencedBlock.span := ⟨fencedText.take 15, by decide, by decide⟩
  obtain ⟨chunks, hchunks, hkept⟩ := fences_stay_whole.1 fencedDocument 1 0 hmarkup
  obtain ⟨chunks', hchunks', hkept'⟩ := fences_stay_whole.2 (fun _ _ => fencedTree) (Grammars.ofLanguages [.markdown])
    fencedDocument { maxChunkSize := 1, chunkOverlap := 0 } (by decide) hformed
  have hblock : (⟨0, 15⟩ : Span) ∈ Fence.blocks fencedDocument.content := by
    show _ ∈ Fence.blocks fencedText
    rw [hblocks]
    exact List.mem_cons_self
  exact ⟨⟨hmarkup, hblocks, chunks, hchunks, (hkept _ hblock).2⟩, hformed, hmem, hink, chunks', hchunks',
    (hkept' fencedBlock hmem rfl hink).2⟩

end Chunker
end Chunkwise
