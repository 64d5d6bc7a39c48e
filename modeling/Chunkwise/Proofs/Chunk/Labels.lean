import Chunkwise.Proofs.Chunk.Range

/-!
# The labels of chunks

A chunk is labelled by what the symbols of its text say of its span (`Chunker.label_of_cutWith`). So program text is cut
into chunks that lose nothing of it and carry the labels of its outline (`Chunker.exists_units`), and a markdown
document into chunks with the labels of its sections (`Chunker.exists_sections`).
-/

namespace Chunkwise

/-- What the symbols of its text say of a chunk. -/
def Chunk.label (c : Chunk) : Label := ⟨c.metadata.chunkType, c.metadata.symbols, c.metadata.containsDocumentation⟩

namespace Chunker

variable {table : CutTable} {document : Document} {size overlap : Nat} {language : Language} {name chunker : String}
variable {label : Span → Label} {chunks : List Chunk} {c : Chunk} {parser : Parser} {grammars : Grammars}
variable {strategy : Strategy}

theorem label_of_ofWindow? {lines : LineTable} {index total : Nat} {w : Window}
    (h : Chunk.ofWindow? document lines name chunker label index total w = some c) : c.label = label c.span := by
  obtain ⟨content, -, rfl⟩ := Option.map_eq_some_iff.1 h
  rfl

/-- Chunks carry the labels of their spans. -/
theorem label_of_cutWith (h : cutWith table document size overlap name chunker label = .ok chunks) (hc : c ∈ chunks) :
    c.label = label c.span := by
  obtain ⟨windows, hassemble⟩ := exists_assemble_of_cutWith h
  obtain ⟨i, -, -, w, -, hmade⟩ := Chunk.exists_window_of_mem hassemble hc
  exact label_of_ofWindow? hmade

/-- Program text is cut into chunks with the labels of its outline. -/
theorem label_of_splitUnits (hloaded : grammars.isLoaded language)
    (h : splitUnits parser grammars language document strategy = .ok chunks) (hc : c ∈ chunks) :
    c.label = ((parser language document.content).outline language document.content).label c.span := by
  unfold splitUnits at h
  split at h
  · cases h
    cases hc
  · simp only [Grammars.parse, if_pos hloaded, splitOutline] at h
    split at h
    · exact label_of_cutWith h hc
    · cases h

/-- A markdown document is cut into chunks with the labels of its sections. -/
theorem label_of_splitSections (hloaded : grammars.isLoaded .markdown)
    (h : splitSections parser grammars document strategy = .ok chunks) (hc : c ∈ chunks) :
    c.label = sectionLabel ((parser .markdown document.content).symbols .markdown document.content) c.span := by
  unfold splitSections at h
  split at h
  · cases h
    cases hc
  · simp only [Grammars.parse, if_pos hloaded] at h
    exact label_of_cutWith h hc

theorem exists_units (parser : Parser) (document : Document) (strategy : Strategy)
    (hloaded : grammars.isLoaded language)
    (hformed : (parser language document.content).WellFormed document.content language.attachmentKinds) :
    ∃ chunks, (code parser grammars language).chunk document strategy = .ok chunks ∧
      Complete document.content chunks ∧
      ∀ c ∈ chunks, c.label = ((parser language document.content).outline language document.content).label c.span := by
  obtain ⟨chunks, hchunks, hcomplete⟩ := splitUnits_complete grammars strategy hformed
  exact ⟨chunks, hchunks, hcomplete, fun c hc => label_of_splitUnits hloaded hchunks hc⟩

theorem exists_sections (parser : Parser) (document : Document) (strategy : Strategy)
    (hloaded : grammars.isLoaded .markdown) :
    ∃ chunks, (markdown parser grammars).chunk document strategy = .ok chunks ∧ Complete document.content chunks ∧
      ∀ c ∈ chunks,
        c.label = sectionLabel ((parser .markdown document.content).symbols .markdown document.content) c.span := by
  obtain ⟨chunks, hchunks, hcomplete⟩ := splitSections_complete parser grammars document strategy
  exact ⟨chunks, hchunks, hcomplete, fun c hc => label_of_splitSections hloaded hchunks hc⟩

end Chunker
end Chunkwise
