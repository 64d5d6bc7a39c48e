import Chunkwise.Proofs.Engine.Unparsed

/-!
# Only the grammar of a document matters

The extension of a document says which grammar it needs: a chunker that owns the extension is that of its language
(`Language.ofExtension?_of_normal`), so that two registries that agree on this grammar give the document to the same
chunker (`loadedLanguage?_congr`) with the same strategy (`strategyOf_congr`), and the chunker asks for no other
grammar (`chunk_builtInFor_congr`). A grammar that is not loaded is the same as no chunker
(`chunkDocument_of_no_chunker`). Together: `only_own_grammar_matters`.
-/

namespace Chunkwise

/-- An extension in normal form stands for the language that it stands for in any form. -/
theorem Language.ofExtension?_of_normal {ext : String} {language : Language}
    (h : Language.ofNormalExtension? ext = some language) : Language.ofExtension? ext = some language := by
  have htable : ∀ entry ∈ Language.extensionTable, Language.ofExtension? entry.1 = some entry.2 := by decide +kernel
  obtain ⟨entry, hentry, rfl⟩ := List.mem_map.1 (Language.mem_extensions.2 h)
  obtain ⟨hmem, hlanguage⟩ := List.mem_filter.1 hentry
  rw [htable entry hmem, eq_of_beq hlanguage]

namespace Engine

variable {p q : Parser} {config : Config} {document : Document} {a b : Grammars} {ext : Option String}
variable {language : Language}

/-! ## The grammar of an extension -/

theorem supports_of_normal (h : ext.bind Language.ofNormalExtension? = some language) (g : Grammars) :
    ext.any g.supports = g.isLoaded language := by
  obtain ⟨e, rfl, he⟩ := Option.bind_eq_some_iff.1 h
  rw [Option.any_some, Grammars.supports, Language.ofExtension?_of_normal he, Option.any_some]

/-- Registries that agree on an extension agree on its language. -/
theorem loadedLanguage?_congr (h : ext.any a.supports = ext.any b.supports) :
    loadedLanguage? a ext = loadedLanguage? b ext := by
  rw [loadedLanguage?, loadedLanguage?]
  cases hlanguage : ext.bind Language.ofNormalExtension? with
  | none => rfl
  | some language =>
    rw [supports_of_normal hlanguage, supports_of_normal hlanguage] at h
    rw [Option.filter_some, Option.filter_some, h]

theorem loadedLanguage?_of_not_supported (h : ext.any a.supports = false) : loadedLanguage? a ext = none := by
  have hempty : ext.any a.supports = ext.any ({} : Grammars).supports := by
    rw [h]
    cases ext with
    | none => rfl
    | some e =>
      rw [Option.any_some, Grammars.supports]
      cases Language.ofExtension? e <;> rfl
  rw [loadedLanguage?_congr hempty, loadedLanguage?]
  cases ext.bind Language.ofNormalExtension? <;> rfl

/-! ## The steps of an engine -/

/-- A strategy depends on the configuration, and on whether there is a chunker. -/
theorem strategyOf_congr {e e' : Engine} (hconfig : e.config = e'.config)
    (husable : (ext.bind e.usable?).isSome = (ext.bind e'.usable?).isSome) : e.strategyOf ext = e'.strategyOf ext := by
  rw [strategyOf, strategyOf, hconfig, husable]

/-- The chunker of a language asks for the tree of that language only. -/
theorem chunk_builtInFor_congr (htree : p language document.content = q language document.content)
    (ha : a.isLoaded language) (hb : b.isLoaded language) (strategy : Strategy) :
    (builtInFor p a language).chunk document strategy = (builtInFor q b language).chunk document strategy := by
  have hparse : a.parse p language document.content = b.parse q language document.content := by
    rw [Grammars.parse, Grammars.parse, if_pos ha, if_pos hb, htree]
  by_cases hmarkdown : language = .markdown
  · subst hmarkdown
    show Chunker.splitSections p a document strategy = Chunker.splitSections q b document strategy
    rw [Chunker.splitSections, Chunker.splitSections, hparse]
  · rw [builtInFor_of_ne hmarkdown, builtInFor_of_ne hmarkdown]
    show Chunker.splitUnits p a language document strategy = Chunker.splitUnits q b language document strategy
    rw [Chunker.splitUnits, Chunker.splitUnits, hparse]

/-- Two engines that find the same language for a document, and a tree for it that is the same, cut it alike. -/
theorem chunk_select_congr (hlanguage : loadedLanguage? a ext = loadedLanguage? b ext)
    (htree : ∀ language, loadedLanguage? a ext = some language →
      p language document.content = q language document.content) (strategy : Strategy) :
    ((withBuiltIn p config a).select ext).chunk document strategy =
      ((withBuiltIn q config b).select ext).chunk document strategy := by
  rw [select, select, usable?_withBuiltIn, usable?_withBuiltIn, config_withBuiltIn, config_withBuiltIn, ← hlanguage]
  split
  · cases hloaded : loadedLanguage? a ext with
    | none => rfl
    | some language =>
      have ha := Option.filter_eq_some_iff.1 hloaded
      have hb := Option.filter_eq_some_iff.1 (hlanguage ▸ hloaded)
      exact chunk_builtInFor_congr (htree language hloaded) ha.2 hb.2 strategy
  · rfl

theorem chunkDocument_congr {e e' : Engine} (hconfig : e.config = e'.config)
    (hstrategy : e.strategyOf document.extension? = e'.strategyOf document.extension?)
    (hselect : ∀ strategy, (e.select document.extension?).chunk document strategy =
      (e'.select document.extension?).chunk document strategy) :
    e.chunkDocument document = e'.chunkDocument document := by
  rw [chunkDocument, chunkDocument, hconfig, hstrategy, hselect]

/-! ## Where there is no chunker -/

theorem select_of_no_chunker (e : Engine) (h : ext.bind e.usable? = none) : e.select ext = Chunker.plain := by
  rw [select, h]
  split <;> rfl

/-- Where grammars are to be used and there is no chunker, the separators cut by the fallback sizes. -/
theorem chunkDocument_of_no_chunker (e : Engine) (document : Document) (henabled : e.config.enabled)
    (hparsing : e.config.useAstParsing) (hnone : document.extension?.bind e.usable? = none)
    (hblank : ¬ document.content.isBlank) (hsize : document.content.byteLen ≤ e.config.maxFileSizeBytes) :
    e.chunkDocument document =
      Chunker.splitPlain document e.config.fallback.chunkSize e.config.fallback.chunkOverlap := by
  have hstrategy : e.strategyOf document.extension? = e.config.fallback.toStrategy := by
    rw [strategyOf, henabled, hnone, hparsing]
    cases document.extension?.bind e.config.strategy? <;> rfl
  rw [chunkDocument, if_neg hblank, if_neg (Nat.not_lt.2 hsize), select_of_no_chunker e hnone, hstrategy]
  rfl

/-- **Only the grammar of a document matters.** Two registries that agree on whether the language of its extension has
a working grammar, with the same tree for it if so, cut a document alike. Where that grammar is not loaded, an engine
without chunkers cuts it alike, which is by separators and the fallback sizes, whatever strategy the extension has. -/
theorem only_own_grammar_matters (p q : Parser) (config : Config) (document : Document) (a b c : Grammars)
    (hagree : document.extension?.any a.supports = document.extension?.any b.supports)
    (htree : ∀ language, document.extension?.bind Language.ofExtension? = some language → a.isLoaded language →
      p language document.content = q language document.content) :
    (withBuiltIn p config a).chunkDocument document = (withBuiltIn q config b).chunkDocument document ∧
    (document.extension?.any a.supports = false →
      (withBuiltIn p config a).chunkDocument document =
          ({ config, grammars := c } : Engine).chunkDocument document ∧
        (config.enabled → config.useAstParsing → ¬ document.content.isBlank →
          document.content.byteLen ≤ config.maxFileSizeBytes →
          (withBuiltIn p config a).chunkDocument document =
            Chunker.splitPlain document config.fallback.chunkSize config.fallback.chunkOverlap)) := by
  have hlanguage := loadedLanguage?_congr hagree
  constructor
  · refine chunkDocument_congr (by rw [config_withBuiltIn, config_withBuiltIn]) (strategyOf_congr ?_ ?_) fun strategy =>
      chunk_select_congr hlanguage (fun language hloaded => ?_) strategy
    · rw [config_withBuiltIn, config_withBuiltIn]
    · rw [usable?_withBuiltIn, usable?_withBuiltIn, hlanguage, Option.isSome_map, Option.isSome_map]
    · obtain ⟨hnormal, hworks⟩ := Option.filter_eq_some_iff.1 hloaded
      obtain ⟨ext, hext, he⟩ := Option.bind_eq_some_iff.1 hnormal
      refine htree language ?_ hworks
      rw [hext, Option.bind_some, Language.ofExtension?_of_normal he]
  · intro hnot
    have hnone : document.extension?.bind (withBuiltIn p config a).usable? = none := by
      rw [usable?_withBuiltIn, loadedLanguage?_of_not_supported hnot, Option.map_none]
    have hempty : document.extension?.bind ({ config, grammars := c } : Engine).usable? = none := by
      cases document.extension? <;> rfl
    constructor
    · refine chunkDocument_congr (config_withBuiltIn p config a) (strategyOf_congr (config_withBuiltIn p config a) ?_)
        fun strategy => ?_
      · rw [hnone, hempty]
      · rw [select_of_no_chunker _ hnone, select_of_no_chunker _ hempty]
    · intro henabled hparsing hblank hsize
      have hplain := chunkDocument_of_no_chunker (withBuiltIn p config a) document
      rw [config_withBuiltIn] at hplain
      exact hplain henabled hparsing hnone hblank hsize

/-- A configuration with a strategy for one extension, and with grammars. -/
def parsedConfig : Config := { unparsedConfig true with useAstParsing := true }

/-- With and without the grammar of another language, which gives a tree of its own, a document is cut alike. Without
the grammar of its own language it is cut by the fallback sizes, not by the strategy for its extension. -/
theorem only_own_grammar_matters_strategy :
    (longDocument.extension?.any (Grammars.ofLanguages [.rust]).supports =
          longDocument.extension?.any (Grammars.ofLanguages [.python, .rust]).supports ∧
        (withBuiltIn (fun _ _ => longTree) parsedConfig (Grammars.ofLanguages [.rust])).chunkDocument longDocument =
          (withBuiltIn (fun language _ => if language = .rust then longTree else Chunker.functionTree) parsedConfig
            (Grammars.ofLanguages [.python, .rust])).chunkDocument longDocument) ∧
      longDocument.extension?.any (Grammars.ofLanguages [.python]).supports = false ∧
        longDocument.extension?.bind parsedConfig.strategy? = some (.code 120 0) ∧
        spansOf? ((withBuiltIn (fun _ _ => longTree) parsedConfig (Grammars.ofLanguages [.python])).chunkDocument
          longDocument) = some [⟨0, 100⟩, ⟨100, 150⟩] := by
  have hagree : longDocument.extension?.any (Grammars.ofLanguages [.rust]).supports =
      longDocument.extension?.any (Grammars.ofLanguages [.python, .rust]).supports := by decide
  have hnot : longDocument.extension?.any (Grammars.ofLanguages [.python]).supports = false := by decide
  have hsize : longDocument.content.byteLen ≤ parsedConfig.maxFileSizeBytes := by decide +kernel
  have hrust : longDocument.extension?.bind Language.ofExtension? = some .rust := by decide
  refine ⟨⟨hagree, ?_⟩, hnot, by decide, ?_⟩
  · refine (only_own_grammar_matters (fun _ _ => longTree)
      (fun language _ => if language = .rust then longTree else Chunker.functionTree) parsedConfig longDocument
      (Grammars.ofLanguages [.rust]) (Grammars.ofLanguages [.python, .rust]) {} hagree ?_).1
    intro language hlanguage _
    rw [hrust] at hlanguage
    cases hlanguage
    rfl
  · have hplain := ((only_own_grammar_matters (fun _ _ => longTree) (fun _ _ => longTree) parsedConfig longDocument
      (Grammars.ofLanguages [.python]) (Grammars.ofLanguages [.python]) {} rfl fun _ _ _ => rfl).2 hnot).2
        rfl rfl (by decide) hsize
    rw [hplain]
    decide +kernel

end Engine
end Chunkwise
