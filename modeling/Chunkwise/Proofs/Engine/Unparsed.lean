import Chunkwise.Proofs.Chunker.Complete
import Chunkwise.Proofs.Engine.Dispatch

/-!
# Cutting without grammars

Where grammars are not to be used, documents are cut by separators alone, and the grammars that are loaded make no
difference (`chunkDocument_ignores_grammars`): the sizes are those of the strategy for the extension, if there is one
and the engine is enabled, and the fallback sizes otherwise. One case is left open, an enabled engine that has the
grammar for an extension but no strategy: the sizes are then those of a default strategy
(`unparsed_sizes_depend_on_grammars`).
-/

namespace Chunkwise

/-- The strategy for an extension where grammars are not used. -/
def Config.plainStrategy (config : Config) (ext : Option String) : Strategy :=
  if config.enabled then (ext.bind config.strategy?).getD config.fallback.toStrategy else config.fallback.toStrategy

namespace Engine

variable {config : Config} {grammars : Grammars} {ext : Option String}

/-- Whether the configuration alone says how an extension is cut: unless the engine is enabled and has no strategy for
it, but the grammar of its language. -/
def SizesSettled (config : Config) (grammars : Grammars) (ext : Option String) : Prop :=
  config.enabled → (ext.bind config.strategy?).isSome ∨ loadedLanguage? grammars ext = none

theorem select_of_unparsed (e : Engine) (h : e.config.useAstParsing = false) (ext : Option String) :
    e.select ext = Chunker.plain := by
  rw [select, h, Bool.and_false]
  rfl

/-- Without grammars the strategy does not depend on which of them are loaded. -/
theorem strategyOf_of_unparsed (e : Engine) (h : e.config.useAstParsing = false)
    (hsettled : e.config.enabled → (ext.bind e.config.strategy?).isSome ∨ ext.bind e.usable? = none) :
    e.strategyOf ext = e.config.plainStrategy ext := by
  rw [strategyOf, Config.plainStrategy]
  cases henabled : e.config.enabled with
  | false => rfl
  | true =>
    have hcases := hsettled henabled
    cases hstrategy : ext.bind e.config.strategy? with
    | some strategy => simp [h]
    | none =>
      rw [hstrategy] at hcases
      have hnone : ext.bind e.usable? = none := by simpa using hcases
      simp [hnone]

/-- What becomes of a document that is cut by separators alone. -/
def cutPlainly (config : Config) (document : Document) : Except Failure (List Chunk) :=
  let strategy := config.plainStrategy document.extension?
  if document.content.isBlank then .ok []
  else if config.maxFileSizeBytes < document.content.byteLen then
    .error (.error (.documentTooLarge document.metadata.filePath document.content.byteLen config.maxFileSizeBytes))
  else Chunker.splitPlain document strategy.maxChunkSize strategy.chunkOverlap

theorem chunkDocument_of_unparsed (e : Engine) (document : Document) (h : e.config.useAstParsing = false)
    (hsettled : e.config.enabled → (document.extension?.bind e.config.strategy?).isSome ∨
      document.extension?.bind e.usable? = none) :
    e.chunkDocument document = cutPlainly e.config document := by
  have hselect := select_of_unparsed e h document.extension?
  have hstrategy := strategyOf_of_unparsed e h hsettled
  simp only [chunkDocument, cutPlainly, hselect, hstrategy]
  rfl

/-- **Where grammars are not used, it makes no difference which of them are loaded**, nor whether there are chunkers for
their languages. -/
theorem chunkDocument_ignores_grammars (parser : Parser) (config : Config) (document : Document)
    (h : config.useAstParsing = false) (a b c : Grammars) (ha : SizesSettled config a document.extension?)
    (hb : SizesSettled config b document.extension?) :
    (withBuiltIn parser config a).chunkDocument document = (withBuiltIn parser config b).chunkDocument document ∧
      (withBuiltIn parser config a).chunkDocument document =
        ({ config, grammars := c } : Engine).chunkDocument document ∧
      (withBuiltIn parser config a).chunkDocument document = cutPlainly config document := by
  have hbuiltIn : ∀ g, SizesSettled config g document.extension? →
      (withBuiltIn parser config g).chunkDocument document = cutPlainly config document := by
    intro g hg
    have hplain := chunkDocument_of_unparsed (withBuiltIn parser config g) document
    rw [config_withBuiltIn, usable?_withBuiltIn, Option.map_eq_none_iff] at hplain
    exact hplain h hg
  have hempty : ({ config, grammars := c } : Engine).chunkDocument document = cutPlainly config document := by
    refine chunkDocument_of_unparsed { config, grammars := c } document h fun _ => Or.inr ?_
    cases document.extension? <;> rfl
  rw [hbuiltIn a ha, hbuiltIn b hb, hempty]
  exact ⟨rfl, rfl, rfl⟩

/-- The spans of the chunks of a result. -/
def spansOf? (result : Except Failure (List Chunk)) : Option (List Span) :=
  match result with
  | .ok chunks => some (chunks.map Chunk.span)
  | .error _ => none

def longDocument : Document := ⟨List.replicate 150 'a', { filePath := "a.rs" }⟩

def longTree : SyntaxTree := ⟨.mk "source_file" true ⟨0, 150⟩ {} [], false⟩

/-- A configuration with a strategy for one extension, and without grammars. -/
def unparsedConfig (enabled : Bool) : Config :=
  { enabled, useAstParsing := false, maxFileSizeMb := 1.0, strategies := [("rs", .code 120 0)],
    fallback := ⟨100, 0⟩ }

/-- With a strategy for the extension it does not matter that its grammar is loaded. -/
theorem chunkDocument_ignores_grammars_strategy :
    (unparsedConfig true).useAstParsing = false ∧
      spansOf? ((withBuiltIn (fun _ _ => longTree) (unparsedConfig true) (Grammars.ofLanguages [.rust])).chunkDocument
        longDocument) = some [⟨0, 120⟩, ⟨120, 150⟩] := by
  have hsettled : ∀ g, SizesSettled (unparsedConfig true) g longDocument.extension? := fun g _ => Or.inl (by decide)
  have hplain := chunkDocument_ignores_grammars (fun _ _ => longTree) (unparsedConfig true) longDocument rfl
    (Grammars.ofLanguages [.rust]) {} {} (hsettled _) (hsettled _)
  refine ⟨rfl, ?_⟩
  rw [hplain.2.2]
  decide +kernel

/-- A configuration without strategies. -/
def bareConfig : Config := { unparsedConfig true with strategies := [] }

/-- A disabled engine does not use the strategy for an extension. An enabled one that has no strategy for it, but the
grammar of its language, uses neither the fallback sizes nor the sizes it would use without that grammar. -/
theorem unparsed_sizes_depend_on_grammars :
    ((unparsedConfig false).useAstParsing = false ∧
        (longDocument.extension?.bind (unparsedConfig false).strategy?) = some (.code 120 0) ∧
        spansOf? ((withBuiltIn (fun _ _ => longTree) (unparsedConfig false) {}).chunkDocument longDocument) =
          some [⟨0, 100⟩, ⟨100, 150⟩] ∧
        spansOf? (Chunker.splitPlain longDocument 120 0) = some [⟨0, 120⟩, ⟨120, 150⟩]) ∧
      bareConfig.useAstParsing = false ∧
        (longDocument.extension?.bind bareConfig.strategy?) = none ∧
        spansOf? ((withBuiltIn (fun _ _ => longTree) bareConfig (Grammars.ofLanguages [.rust])).chunkDocument
          longDocument) = some [⟨0, 150⟩] ∧
        spansOf? ((withBuiltIn (fun _ _ => longTree) bareConfig {}).chunkDocument longDocument) =
          some [⟨0, 100⟩, ⟨100, 150⟩] := by
  refine ⟨⟨rfl, by decide, ?_, ?_⟩, rfl, by decide, ?_, ?_⟩
  · decide +kernel
  · decide +kernel
  · decide +kernel
  · decide +kernel

end Engine
end Chunkwise
