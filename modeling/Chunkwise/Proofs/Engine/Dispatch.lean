import Chunkwise.Engine
import Chunkwise.Proofs.Named

/-!
# Who cuts what

An extension belongs to the chunker that was registered last among those that claim it (`owner?_register`). The
chunkers of the known languages claim disjoint extensions, those that stand for their language (`mem_extensions`); with
all of them registered, the owner of an extension is the chunker of its language (`owner?_withBuiltIn`), and it can be
used if that language has a working grammar (`usable?_withBuiltIn`).
-/

namespace Chunkwise

variable {ext : String}

theorem Language.mem_extensions {language : Language} :
    ext ∈ language.extensions ↔ Language.ofNormalExtension? ext = some language := by
  constructor
  · intro h
    obtain ⟨entry, hentry, rfl⟩ := List.mem_map.1 h
    obtain ⟨hmem, hlanguage⟩ := List.mem_filter.1 hentry
    rw [ofNormalExtension?_of_mem entry hmem, beq_iff_eq.1 hlanguage]
  · intro h
    obtain ⟨entry, hfind, rfl⟩ := Option.map_eq_some_iff.1 h
    have hname := List.find?_some hfind
    rw [beq_iff_eq] at hname
    have hmem := List.mem_of_find?_eq_some hfind
    exact List.mem_map.2 ⟨entry, List.mem_filter.2 ⟨hmem, beq_self_eq_true _⟩, hname⟩

namespace Engine

variable {e : Engine} {parser : Parser} {config : Config} {grammars : Grammars}

/-! ## Registering -/

/-- Whether every extension with an owner has a chunker. -/
def WellIndexed (e : Engine) : Prop := ∀ ext index, e.owners.find? ext = some index → index < e.chunkers.length

theorem find?_register (e : Engine) (c : Chunker) (ext : String) :
    (e.register c).owners.find? ext = if ext ∈ c.extensions then some e.chunkers.length else e.owners.find? ext :=
  Named.find?_insertAll_map (fun _ => e.chunkers.length) ext c.extensions e.owners

theorem wellIndexed_register (h : e.WellIndexed) (c : Chunker) : (e.register c).WellIndexed := by
  intro ext index hindex
  have hlength : (e.register c).chunkers.length = e.chunkers.length + 1 := List.length_append
  rw [find?_register] at hindex
  split at hindex
  · cases hindex
    omega
  · have hlt := h ext index hindex
    omega

/-- A chunker that is registered takes over the extensions it claims, and the others stay with their owners. -/
theorem owner?_register (h : e.WellIndexed) (c : Chunker) (ext : String) :
    (e.register c).owner? ext = if ext ∈ c.extensions then some c else e.owner? ext := by
  have hchunkers : (e.register c).chunkers = e.chunkers ++ [c] := rfl
  rw [owner?, find?_register, hchunkers]
  split
  · rw [Option.bind_some, List.getElem?_append_right (Nat.le_refl _), Nat.sub_self]
    rfl
  · rw [owner?]
    cases hindex : e.owners.find? ext with
    | none => rfl
    | some index =>
      rw [Option.bind_some, Option.bind_some]
      exact List.getElem?_append_left (h ext index hindex)

/-- **An extension belongs to the chunker registered last among those that claim it.** -/
theorem owner?_foldl_register (h : e.WellIndexed) (chunkers : List Chunker) (ext : String) :
    (chunkers.foldl register e).owner? ext =
      (chunkers.reverse.find? fun c => c.extensions.contains ext).or (e.owner? ext) := by
  induction chunkers generalizing e with
  | nil => rfl
  | cons c chunkers ih =>
    rw [List.foldl_cons, ih (wellIndexed_register h c), owner?_register h, List.reverse_cons, List.find?_append,
      Option.or_assoc]
    congr 1
    by_cases hclaims : ext ∈ c.extensions
    · simp [hclaims]
    · simp [hclaims]

/-! ## The chunkers of the known languages -/

/-- The chunker of a language. -/
def builtInFor (parser : Parser) (grammars : Grammars) : Language → Chunker
  | .markdown => Chunker.markdown parser grammars
  | language => Chunker.code parser grammars language

theorem builtInFor_of_ne {language : Language} (h : language ≠ .markdown) (parser : Parser) (grammars : Grammars) :
    builtInFor parser grammars language = Chunker.code parser grammars language := by
  cases language with
  | markdown => exact absurd rfl h
  | _ => rfl

theorem builtIn_eq (parser : Parser) (grammars : Grammars) :
    builtIn parser grammars = Language.all.map (builtInFor parser grammars) := rfl

theorem extensions_builtInFor (parser : Parser) (grammars : Grammars) (language : Language) :
    (builtInFor parser grammars language).extensions = language.extensions := by cases language <;> rfl

theorem language_builtInFor (parser : Parser) (grammars : Grammars) (language : Language) :
    (builtInFor parser grammars language).language = some language := by cases language <;> rfl

/-- The owner of an extension is the chunker of the language it stands for. -/
theorem owner?_withBuiltIn (parser : Parser) (config : Config) (grammars : Grammars) (ext : String) :
    (withBuiltIn parser config grammars).owner? ext =
      (Language.ofNormalExtension? ext).map (builtInFor parser grammars) := by
  have hempty : ({ config, grammars } : Engine).WellIndexed := fun _ _ h => by cases h
  have hclaims : ((fun c : Chunker => c.extensions.contains ext) ∘ builtInFor parser grammars) =
      fun language => decide (Language.ofNormalExtension? ext = some language) := by
    funext language
    simp only [Function.comp_apply, extensions_builtInFor, List.contains_eq_mem, Language.mem_extensions]
  rw [withBuiltIn, builtIn_eq, owner?_foldl_register hempty, ← List.map_reverse, List.find?_map, hclaims]
  have hnone : ({ config, grammars } : Engine).owner? ext = none := rfl
  rw [hnone, Option.or_none]
  congr 1
  cases Language.ofNormalExtension? ext with
  | none => decide
  | some language => cases language <;> decide

theorem config_foldl_register (chunkers : List Chunker) (e : Engine) :
    (chunkers.foldl register e).config = e.config ∧ (chunkers.foldl register e).grammars = e.grammars := by
  induction chunkers generalizing e with
  | nil => exact ⟨rfl, rfl⟩
  | cons c chunkers ih => exact ih (e.register c)

@[simp] theorem config_withBuiltIn (parser : Parser) (config : Config) (grammars : Grammars) :
    (withBuiltIn parser config grammars).config = config := (config_foldl_register _ _).1

@[simp] theorem grammars_withBuiltIn (parser : Parser) (config : Config) (grammars : Grammars) :
    (withBuiltIn parser config grammars).grammars = grammars := (config_foldl_register _ _).2

/-- The language of an extension, if it has a working grammar. -/
def loadedLanguage? (grammars : Grammars) (ext : Option String) : Option Language :=
  (ext.bind Language.ofNormalExtension?).filter grammars.isLoaded

/-- **A document goes to the chunker of its language, if that has a working grammar.** -/
theorem usable?_withBuiltIn (parser : Parser) (config : Config) (grammars : Grammars) (ext : Option String) :
    ext.bind (withBuiltIn parser config grammars).usable? =
      (loadedLanguage? grammars ext).map (builtInFor parser grammars) := by
  cases ext with
  | none => rfl
  | some ext =>
    rw [Option.bind_some, usable?, owner?_withBuiltIn, grammars_withBuiltIn, loadedLanguage?, Option.bind_some]
    cases Language.ofNormalExtension? ext with
    | none => rfl
    | some language =>
      rw [Option.map_some, Option.filter_some, Option.filter_some, language_builtInFor, Option.all_some]
      cases grammars.isLoaded language <;> rfl

end Engine
end Chunkwise
