import Chunkwise.Proofs.Chunker.Fences
import Chunkwise.Proofs.Chunker.Words
import Chunkwise.Proofs.Engine.Dispatch

/-!
# Every document has an answer

None of the three chunkers breaks down: the plan of a well-formed tree can be made step by step, and whatever the plan,
the sizes and the text are, the walk that cuts it moves on from position to position. With the chunkers of all known
languages the engine therefore cuts every document that it does not refuse for its size, and refuses no other. It comes to
the same if all its numbers are held to 64 bits, as long as these have room for the text and the tree
(`chunkDocument_total`); the only tree that matters is that of the language the document goes by.
-/

namespace Chunkwise

namespace Chunker

variable {document : Document} {size overlap : Nat} {chunks : List Chunk} {parser : Parser} {grammars : Grammars}
variable {language : Language} {strategy : Strategy}

/-- Whether a result is chunks of a document, with their numbers in range. -/
def Answers (document : Document) (result : Except Failure (List Chunk)) : Prop :=
  ∃ chunks, result = .ok chunks ∧ ∀ c ∈ chunks, c.InRange document.content

theorem answers_nil (document : Document) : Answers document (.ok []) :=
  ⟨[], rfl, fun _ hc => by cases hc⟩

theorem splitPlain_answers (document : Document) (size overlap : Nat) :
    Answers document (splitPlain document size overlap) := by
  obtain ⟨chunks, hchunks, hcomplete⟩ := splitPlain_complete document size overlap
  refine ⟨chunks, hchunks, ?_⟩
  unfold splitPlain at hchunks
  split at hchunks
  · cases hchunks
    intro c hc
    cases hc
  · exact inRange_of_cutWith hchunks hcomplete

theorem splitSections_answers (parser : Parser) (grammars : Grammars) (document : Document) (strategy : Strategy) :
    Answers document (splitSections parser grammars document strategy) := by
  unfold splitSections
  split
  · exact answers_nil document
  · split
    · exact splitPlain_answers document _ _
    · obtain ⟨chunks, hchunks, hcomplete⟩ := exists_complete_of_built (built_sectionPlan _ _) _ _ _ _ _
      exact ⟨chunks, hchunks, inRange_of_cutWith hchunks hcomplete⟩

/-- Program text is cut by its outline if the tree that the grammar gives is well-formed. -/
theorem splitUnits_answers (grammars : Grammars) (strategy : Strategy)
    (h : (parser language document.content).WellFormed document.content language.attachmentKinds) :
    Answers document (splitUnits parser grammars language document strategy) := by
  unfold splitUnits
  split
  · exact answers_nil document
  · split
    · exact splitPlain_answers document _ _
    · rename_i tree hparse
      have htree : tree = parser language document.content := by
        unfold Grammars.parse at hparse
        split at hparse
        · cases hparse
          rfl
        · cases hparse
      subst htree
      obtain ⟨chunks, hchunks, hcomplete⟩ : ∃ chunks, splitOutline language
          ((parser language document.content).outline language document.content) document strategy = .ok chunks ∧
            Complete document.content chunks :=
        splitOutline_complete h.sound rfl strategy
      refine ⟨chunks, hchunks, ?_⟩
      have hplan := h.sound.plan?_eq strategy
      rw [splitOutline, hplan] at hchunks
      exact inRange_of_cutWith hchunks hcomplete

end Chunker

namespace Engine

open Chunker

variable {parser : Parser} {config : Config} {grammars : Grammars} {document : Document} {strategy : Strategy}

theorem builtInFor_answers (grammars : Grammars) (language : Language) (strategy : Strategy)
    (h : (parser language document.content).WellFormed document.content language.attachmentKinds) :
    Answers document ((builtInFor parser grammars language).chunk document strategy) := by
  by_cases hmarkdown : language = .markdown
  · subst hmarkdown
    exact splitSections_answers parser grammars document strategy
  · rw [builtInFor_of_ne hmarkdown]
    exact splitUnits_answers grammars strategy h

theorem select_answers (config : Config) (grammars : Grammars) (strategy : Strategy)
    (hformed : ∀ language, document.extension?.bind Language.ofNormalExtension? = some language →
      (parser language document.content).WellFormed document.content language.attachmentKinds) :
    Answers document
      (((withBuiltIn parser config grammars).select document.extension?).chunk document strategy) := by
  have hplain : Answers document (plain.chunk document strategy) := splitPlain_answers document _ _
  rw [select, usable?_withBuiltIn]
  split
  · cases hloaded : loadedLanguage? grammars document.extension? with
    | none => exact hplain
    | some language =>
      have hlanguage := (Option.filter_eq_some_iff.1 hloaded).1
      exact builtInFor_answers grammars language strategy (hformed language hlanguage)
  · exact hplain

/-! ## In machine words -/

/-- The chunks of a document by the chunker of a language, or by separators alone; `none` if a number gets too large. -/
def splitInWords? (parser : Parser) (grammars : Grammars) (language : Option Language) (document : Document)
    (strategy : Strategy) : Option (Except Failure (List Chunk)) :=
  match language with
  | none => splitPlainInWords? document strategy.maxChunkSize strategy.chunkOverlap
  | some .markdown => splitSectionsInWords? parser grammars document strategy
  | some language => splitUnitsInWords? parser grammars language document strategy

/-- The chunks of a document by the chunkers of all known languages; `none` if a number gets too large. -/
def chunkDocumentInWords? (parser : Parser) (config : Config) (grammars : Grammars) (document : Document) :
    Option (Except Failure (List Chunk)) :=
  if document.content.isBlank then some (.ok [])
  else
    let size := document.content.byteLen
    let limit := config.maxFileSizeBytes
    if limit < size then some (.error (.error (.documentTooLarge document.metadata.filePath size limit)))
    else
      splitInWords? parser grammars
        (if config.enabled && config.useAstParsing then loadedLanguage? grammars document.extension? else none) document
        ((withBuiltIn parser config grammars).strategyOf document.extension?)

theorem splitInWords?_eq (grammars : Grammars) (language : Option Language) (strategy : Strategy)
    (hbytes : document.content.byteLen < UInt64.size / 2)
    (hformed : ∀ l, language = some l →
      (parser l document.content).WellFormed document.content l.attachmentKinds)
    (hroom : ∀ l, language = some l → (parser l document.content).HasRoom l document.content) :
    splitInWords? parser grammars language document strategy =
      some (((language.map (builtInFor parser grammars)).getD plain).chunk document strategy) := by
  cases language with
  | none => exact splitPlainInWords?_eq hbytes _ _
  | some l =>
    have hformed := hformed l rfl
    have hroom := hroom l rfl
    by_cases hmarkdown : l = .markdown
    · subst hmarkdown
      exact splitSectionsInWords?_eq grammars strategy hbytes hformed hroom
    · have hunits := splitUnitsInWords?_eq grammars strategy hbytes hformed hroom
      rw [Option.map_some, Option.getD_some, builtInFor_of_ne hmarkdown]
      cases l with
      | markdown => exact absurd rfl hmarkdown
      | _ => exact hunits

/-- **Chunking makes no large numbers**, if 64 bits have room for the text and the tree. -/
theorem chunkDocumentInWords?_eq (config : Config) (grammars : Grammars)
    (hbytes : document.content.byteLen < UInt64.size / 2)
    (hformed : ∀ language, document.extension?.bind Language.ofNormalExtension? = some language →
      (parser language document.content).WellFormed document.content language.attachmentKinds)
    (hroom : ∀ language, document.extension?.bind Language.ofNormalExtension? = some language →
      (parser language document.content).HasRoom language document.content) :
    chunkDocumentInWords? parser config grammars document =
      some ((withBuiltIn parser config grammars).chunkDocument document) := by
  have hloaded : ∀ {language}, loadedLanguage? grammars document.extension? = some language →
      document.extension?.bind Language.ofNormalExtension? = some language := fun h =>
    (Option.filter_eq_some_iff.1 h).1
  rw [chunkDocumentInWords?, chunkDocument, config_withBuiltIn, select, usable?_withBuiltIn, config_withBuiltIn]
  split
  · rfl
  · simp only
    split
    · rfl
    · split
      · exact splitInWords?_eq grammars _ _ hbytes (fun _ h => hformed _ (hloaded h)) fun _ h => hroom _ (hloaded h)
      · exact splitInWords?_eq grammars none _ hbytes (fun _ h => by cases h) fun _ h => by cases h

/-! ## Every document -/

/-- An error if a document is not blank and beyond the size limit, chunks otherwise. -/
theorem chunkDocument_answers (config : Config) (grammars : Grammars)
    (hformed : ∀ language, document.extension?.bind Language.ofNormalExtension? = some language →
      (parser language document.content).WellFormed document.content language.attachmentKinds) :
    ((withBuiltIn parser config grammars).chunkDocument document =
        .error (.error (.documentTooLarge document.metadata.filePath document.content.byteLen
          config.maxFileSizeBytes)) ↔
      ¬ document.content.isBlank ∧ config.maxFileSizeBytes < document.content.byteLen) ∧
    (Answers document ((withBuiltIn parser config grammars).chunkDocument document) ↔
      document.content.isBlank ∨ document.content.byteLen ≤ config.maxFileSizeBytes) := by
  by_cases hblank : document.content.isBlank
  · have hresult := chunkDocument_of_isBlank (withBuiltIn parser config grammars) hblank
    rw [hresult]
    refine ⟨⟨fun h => (by cases h), fun h => absurd hblank h.1⟩, fun _ => Or.inl hblank, fun _ => ?_⟩
    exact answers_nil document
  · by_cases hlarge : config.maxFileSizeBytes < document.content.byteLen
    · have hresult : (withBuiltIn parser config grammars).chunkDocument document =
          .error (.error (.documentTooLarge document.metadata.filePath document.content.byteLen
            config.maxFileSizeBytes)) := by
        simp [chunkDocument, hblank, hlarge]
      refine ⟨⟨fun _ => ⟨hblank, hlarge⟩, fun _ => hresult⟩, ?_, ?_⟩
      · rintro ⟨chunks, hchunks, -⟩
        rw [hresult] at hchunks
        cases hchunks
      · rintro (h | hle)
        · exact absurd h hblank
        · omega
    · obtain ⟨chunks, hchunks, hrange⟩ := select_answers config grammars
        ((withBuiltIn parser config grammars).strategyOf document.extension?) hformed
      have hresult : (withBuiltIn parser config grammars).chunkDocument document = .ok chunks := by
        rw [← hchunks]
        simp [chunkDocument, hblank, hlarge]
      refine ⟨⟨fun h => ?_, fun h => absurd h.2 hlarge⟩, fun _ => Or.inr (Nat.le_of_not_lt hlarge), fun _ => ?_⟩
      · rw [hresult] at h
        cases h
      · exact ⟨chunks, hresult, hrange⟩

/-- **Every document has an answer**: an error if it is not blank and beyond the size limit, chunks otherwise. No number on
the way to it is too large for 64 bits, if these have room for the text and the tree. -/
theorem chunkDocument_total (parser : Parser) (config : Config) (grammars : Grammars) (document : Document)
    (hformed : ∀ language, document.extension?.bind Language.ofNormalExtension? = some language →
      (parser language document.content).WellFormed document.content language.attachmentKinds) :
    ((withBuiltIn parser config grammars).chunkDocument document =
        .error (.error (.documentTooLarge document.metadata.filePath document.content.byteLen
          config.maxFileSizeBytes)) ↔
      ¬ document.content.isBlank ∧ config.maxFileSizeBytes < document.content.byteLen) ∧
    ((∃ chunks, (withBuiltIn parser config grammars).chunkDocument document = .ok chunks ∧
        ∀ c ∈ chunks, c.InRange document.content) ↔
      document.content.isBlank ∨ document.content.byteLen ≤ config.maxFileSizeBytes) ∧
    (document.content.byteLen < UInt64.size / 2 →
      (∀ language, document.extension?.bind Language.ofNormalExtension? = some language →
        (parser language document.content).HasRoom language document.content) →
      chunkDocumentInWords? parser config grammars document =
        some ((withBuiltIn parser config grammars).chunkDocument document)) := by
  obtain ⟨hlarge, hanswers⟩ := chunkDocument_answers config grammars hformed
  exact ⟨hlarge, hanswers, fun hbytes hroom => chunkDocumentInWords?_eq config grammars hbytes hformed hroom⟩

/-- A markdown document with a code block has chunks, and 64 bits have room for its numbers. -/
theorem chunkDocument_total_fenced :
    fencedTree.WellFormed fencedText Language.markdown.attachmentKinds ∧ fencedTree.HasRoom .markdown fencedText ∧
      fencedTree.root.codeDepth .markdown = 1 ∧ fencedText.byteLen ≤ Config.default.maxFileSizeBytes ∧
      ∃ chunks, chunkDocumentInWords? (fun _ _ => fencedTree) Config.default (Grammars.ofLanguages [.markdown])
        fencedDocument = some (.ok chunks) ∧ ∀ c ∈ chunks, c.InRange fencedText := by
  have hformed : fencedTree.WellFormed fencedText Language.markdown.attachmentKinds := by decide
  have hdepth : fencedTree.root.codeDepth .markdown = 1 := by decide
  have hroom : fencedTree.HasRoom .markdown fencedText := ⟨by decide, fun _ => by rw [hdepth]; decide⟩
  have hsize : fencedText.byteLen ≤ Config.default.maxFileSizeBytes := by decide
  have hmarkdown : fencedDocument.extension?.bind Language.ofNormalExtension? = some .markdown := by decide
  obtain ⟨-, hanswers, hwords⟩ := chunkDocument_total (fun _ _ => fencedTree) Config.default
    (Grammars.ofLanguages [.markdown]) fencedDocument fun language hlanguage => by
      rw [hmarkdown] at hlanguage
      cases hlanguage
      exact hformed
  obtain ⟨chunks, hchunks, hrange⟩ := hanswers.2 (Or.inr hsize)
  refine ⟨hformed, hroom, hdepth, hsize, chunks, ?_, hrange⟩
  rw [← hchunks]
  refine hwords (by decide) fun language hlanguage => ?_
  rw [hmarkdown] at hlanguage
  cases hlanguage
  exact hroom

end Engine
end Chunkwise
