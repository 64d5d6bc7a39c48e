import Chunkwise.Proofs.Engine.OwnGrammar
import Chunkwise.Proofs.Grammar

/-!
# Registry and engine agree

Whether an extension has a working grammar can be asked in several ways: of the registry (`Grammars.supports`, the
parser of its language, `require`, `errorMessage?`, `status`) and of an engine with the chunkers of all known languages
(its own `errorMessage?`, and the chunker that a file is given to). They normalise the extension in different places and
look it up in different tables. All of them give one answer (`Grammars.errorMessage?_eq_none`,
`errorMessage?_withBuiltIn_eq_none`, `chunkerFor_withBuiltIn`), and where it is no, one reason:
`registry_tells_one_story`.
-/

namespace Chunkwise

variable {ext : String} {language : Language}

theorem Path.dropDots_dropDots (s : String) : dropDots (dropDots s) = dropDots s := by
  have hdrop : ∀ cs : List Char, (cs.dropWhile (· == '.')).dropWhile (· == '.') = cs.dropWhile (· == '.') := by
    intro cs
    induction cs with
    | nil => rfl
    | cons c cs ih => by_cases h : c = '.' <;> simp [h, ih]
  rw [dropDots, dropDots, String.toList_ofList, hdrop]

theorem Language.ofExtension?_dropDots (ext : String) : ofExtension? (Path.dropDots ext) = ofExtension? ext := by
  rw [ofExtension?, Path.dropDots_dropDots, ofExtension?]

namespace Grammars

variable {g : Grammars}

/-! ## Asking the registry -/

theorem supports_iff : g.supports ext ↔ ∃ language, Language.ofExtension? ext = some language ∧ g.isLoaded language := by
  rw [supports, Option.any_eq_true]

theorem isSome_parser? (g : Grammars) (parser : Parser) (language : Language) :
    (g.parser? parser language).isSome = g.isLoaded language := by
  rw [parser?]
  cases g.isLoaded language <;> rfl

/-- What the registry says of an extension that stands for a language. -/
theorem errorMessage?_of_language (h : Language.ofExtension? ext = some language) :
    g.errorMessage? ext =
      if g.isLoaded language then none
      else some (match g.failure? language with
        | some reason => s!"Grammar for {language.name} failed to load: {reason}"
        | none => s!"Grammar for {language.name} was not requested at startup") := by
  unfold errorMessage?
  simp only [Language.ofExtension?_dropDots, h]
  cases g.failure? language <;> rfl

theorem errorMessage?_eq_none : g.errorMessage? ext = none ↔ g.supports ext := by
  cases h : Language.ofExtension? ext with
  | none =>
    unfold errorMessage?
    simp [Language.ofExtension?_dropDots, supports, h]
  | some language =>
    rw [errorMessage?_of_language h, supports, h, Option.any_some]
    cases g.isLoaded language <;> simp

theorem find?_status (g : Grammars) (ext : String) :
    Named.find? ext g.status = if ext ∈ Language.allExtensions then some (g.supports ext) else none :=
  Named.find?_insertAll_map g.supports ext Language.allExtensions []

end Grammars

namespace Engine

variable {e : Engine} {parser : Parser} {config : Config} {g : Grammars}

/-! ## Asking the engine -/

theorem wellIndexed_foldl_register (h : e.WellIndexed) (chunkers : List Chunker) :
    (chunkers.foldl register e).WellIndexed := by
  induction chunkers generalizing e with
  | nil => exact h
  | cons c chunkers ih => exact ih (wellIndexed_register h c)

theorem isSome_owner? (h : e.WellIndexed) (ext : String) : (e.owner? ext).isSome = (e.owners.find? ext).isSome := by
  rw [owner?]
  cases hindex : e.owners.find? ext with
  | none => rfl
  | some index =>
    rw [Option.bind_some, List.getElem?_eq_getElem (h ext index hindex)]
    rfl

/-- An extension in any form has a chunker if it stands for a language. -/
theorem isNone_owners_withBuiltIn (parser : Parser) (config : Config) (g : Grammars) (ext : String) :
    ((withBuiltIn parser config g).owners.find? (lowered (Path.dropDots ext))).isNone =
      (Language.ofExtension? ext).isNone := by
  have hempty : ({ config, grammars := g } : Engine).WellIndexed := fun _ _ h => by cases h
  have hindexed : (withBuiltIn parser config g).WellIndexed := wellIndexed_foldl_register hempty _
  have howner := isSome_owner? hindexed (lowered (Path.dropDots ext))
  rw [owner?_withBuiltIn, Option.isSome_map] at howner
  rw [← Option.not_isSome, ← howner, Option.not_isSome]
  rfl

/-- Engine and registry say the same of an extension that stands for a language. -/
theorem errorMessage?_withBuiltIn (h : Language.ofExtension? ext = some language) :
    (withBuiltIn parser config g).errorMessage? ext = g.errorMessage? ext := by
  have hnormal : Language.ofExtension? (lowered (Path.dropDots ext)) = some language :=
    Language.ofExtension?_of_normal h
  simp only [errorMessage?, isNone_owners_withBuiltIn, h, Option.isNone_some, Bool.false_eq_true, if_false,
    grammars_withBuiltIn]
  rw [Grammars.errorMessage?_of_language hnormal, Grammars.errorMessage?_of_language h]

theorem errorMessage?_withBuiltIn_eq_none :
    (withBuiltIn parser config g).errorMessage? ext = none ↔ g.supports ext := by
  cases h : Language.ofExtension? ext with
  | none => simp [errorMessage?, isNone_owners_withBuiltIn, Grammars.supports, h]
  | some language => rw [errorMessage?_withBuiltIn h, Grammars.errorMessage?_eq_none]

theorem name_builtInFor_ne (parser : Parser) (g : Grammars) (language : Language) :
    (builtInFor parser g language).name ≠ Chunker.plain.name := by
  have hcode : Chunker.codeName language ≠ Chunker.plainName := by cases language <;> decide
  by_cases hmarkdown : language = .markdown
  · rw [hmarkdown]
    exact (by decide : Chunker.markdownName ≠ Chunker.plainName)
  · rw [builtInFor_of_ne hmarkdown]
    exact hcode

/-- A file goes to the chunker of its language if that has a working grammar, where grammars are used. -/
theorem chunkerFor_withBuiltIn {path : String} (henabled : config.enabled) (hparsing : config.useAstParsing)
    (hpath : Path.extension? path = some (lowered (Path.dropDots ext))) :
    (withBuiltIn parser config g).chunkerFor path =
      (((Language.ofExtension? ext).filter g.isLoaded).map (builtInFor parser g)).getD Chunker.plain := by
  rw [chunkerFor, select, config_withBuiltIn, henabled, hparsing, hpath, usable?_withBuiltIn, loadedLanguage?,
    Bool.and_self, if_pos rfl, Option.bind_some, Language.ofExtension?]

theorem chunkerFor_withBuiltIn_iff {path : String} (henabled : config.enabled) (hparsing : config.useAstParsing)
    (hpath : Path.extension? path = some (lowered (Path.dropDots ext))) :
    ((withBuiltIn parser config g).chunkerFor path ≠ Chunker.plain ↔ g.supports ext) ∧
      (((withBuiltIn parser config g).chunkerFor path).name ≠ Chunker.plain.name ↔ g.supports ext) := by
  rw [chunkerFor_withBuiltIn henabled hparsing hpath, Grammars.supports]
  cases Language.ofExtension? ext with
  | none => simp
  | some language =>
    have hname := name_builtInFor_ne parser g language
    have hne : builtInFor parser g language ≠ Chunker.plain := fun h => hname (congrArg Chunker.name h)
    rw [Option.filter_some, Option.any_some]
    cases g.isLoaded language <;> simp [hname, hne]

/-- **Registry and engine tell one story.** After any calls to any registry, no language is loaded and wrong at once, and
one that the calls are about is loaded exactly if the last of them binds its grammar. In every form of an extension, all
ways to ask for its grammar agree: for its language, its parser and what is required of it, for the messages of registry
and engine, for the status of known extensions, and for the chunker that a file with this extension is given to. What
is reported where the grammar is missing is the last thing that was found wrong. -/
theorem registry_tells_one_story (languages : List Language) (before calls : List Grammars.Call) (parser : Parser)
    (config : Config) :
    let start := (Grammars.ofLanguages languages).after before
    let g := start.after calls
    let e := withBuiltIn parser config g
    (∀ language, ¬ (g.isLoaded language ∧ (g.failure? language).isSome)) ∧
      (∀ language, (∃ c ∈ calls, c.language = language) →
        (g.isLoaded language ↔ Grammars.lastCall? calls language = some (.register language))) ∧
      (∀ ext, (g.supports ext ↔ ∃ language, Language.ofExtension? ext = some language ∧
          (g.parser? parser language).isSome) ∧
        (g.supports ext ↔ ∃ language, Language.ofExtension? ext = some language ∧ g.require language = .ok ()) ∧
        (g.supports ext ↔ g.errorMessage? ext = none) ∧
        (g.supports ext ↔ e.errorMessage? ext = none)) ∧
      (∀ ext, g.status.find? ext = if ext ∈ Language.allExtensions then some (g.supports ext) else none) ∧
      (config.enabled → config.useAstParsing → ∀ ext path,
        Path.extension? path = some (lowered (Path.dropDots ext)) →
          (e.chunkerFor path ≠ Chunker.plain ↔ g.supports ext) ∧
          ((e.chunkerFor path).name ≠ Chunker.plain.name ↔ g.supports ext)) ∧
      ∀ ext language, Language.ofExtension? ext = some language → ¬ g.isLoaded language →
        let reason := Grammars.lastReason? (before ++ calls) language
        g.require language =
            .error (.grammarUnavailable language.name (reason.getD "not requested at startup")) ∧
          g.errorMessage? ext = some (match reason with
            | some reason => s!"Grammar for {language.name} failed to load: {reason}"
            | none => s!"Grammar for {language.name} was not requested at startup") ∧
          e.errorMessage? ext = g.errorMessage? ext := by
  intro start g e
  have hg : g = (Grammars.ofLanguages languages).after (before ++ calls) := (Grammars.after_append _ _ _).symm
  refine ⟨fun language => ?_, fun language => Grammars.isLoaded_after_iff _, fun ext => ⟨?_, ?_, ?_, ?_⟩, Grammars.find?_status g,
    fun henabled hparsing ext path hpath => chunkerFor_withBuiltIn_iff henabled hparsing hpath,
    fun ext language hlanguage hnot => ?_⟩
  · rw [hg]
    exact Grammars.not_loaded_and_failed languages _ language
  · simp only [Grammars.supports_iff, Grammars.isSome_parser?]
  · simp only [Grammars.supports_iff, Grammars.require_eq_ok]
  · exact Grammars.errorMessage?_eq_none.symm
  · exact errorMessage?_withBuiltIn_eq_none.symm
  · have hfailure : g.failure? language = Grammars.lastReason? (before ++ calls) language := by
      rw [hg] at hnot ⊢
      exact Grammars.failure?_of_not_loaded hnot
    refine ⟨?_, ?_, errorMessage?_withBuiltIn hlanguage⟩
    · rw [Grammars.require, if_neg hnot, hfailure]
    · rw [Grammars.errorMessage?_of_language hlanguage, if_neg hnot, hfailure]

def changingCalls : List Grammars.Call :=
  [.register .go, .markUnavailable .rust "old", .register .rust, .markUnavailable .rust "new"]

/-- A grammar that was taken away twice is missing for the second reason, in every form of its extension, and one that
was bound in between works. -/
theorem registry_tells_one_story_revoked :
    let g := ((Grammars.ofLanguages [.rust]).after []).after changingCalls
    let e := withBuiltIn (fun _ _ => ⟨.mk "source_file" true ⟨0, 0⟩ {} [], false⟩) Config.default g
    (Grammars.lastCall? changingCalls .go = some (.register .go) ∧ g.isLoaded .go) ∧
      (Language.ofExtension? "..Rs" = some .rust ∧ ¬ g.isLoaded .rust ∧
        e.errorMessage? "..Rs" = some "Grammar for rust failed to load: new") ∧
      Path.extension? "a.GO" = some (lowered (Path.dropDots ".Go")) ∧
      g.supports ".Go" ∧ (e.chunkerFor "a.GO").name ≠ Chunker.plain.name := by
  intro g e
  have hstory := registry_tells_one_story [.rust] [] changingCalls
    (fun _ _ => ⟨.mk "source_file" true ⟨0, 0⟩ {} [], false⟩) Config.default
  obtain ⟨-, hlast, -, -, hchunker, hreason⟩ := hstory
  have hgo : g.isLoaded .go := (hlast .go ⟨.register .go, List.mem_cons_self, rfl⟩).2 rfl
  have hrust : Language.ofExtension? "..Rs" = some .rust := by decide +kernel
  have hsupports : g.supports ".Go" := by decide +kernel
  have hpath : Path.extension? "a.GO" = some (lowered (Path.dropDots ".Go")) := by decide +kernel
  have hnot : ¬ g.isLoaded .rust := by decide
  obtain ⟨-, hmessage, hsame⟩ := hreason "..Rs" .rust hrust hnot
  exact ⟨⟨rfl, hgo⟩, ⟨hrust, hnot, hsame.trans hmessage⟩, hpath, hsupports,
    (hchunker rfl rfl ".Go" "a.GO" hpath).2.2 hsupports⟩

end Engine
end Chunkwise
