import Chunkwise.Failure
import Chunkwise.Language
import Chunkwise.Named
import Chunkwise.Tree.Symbols

/-!
# Grammars

Which languages have a working grammar, and why others have none. A grammar gives every text a syntax tree; texts
of a language are parsed only if its grammar is loaded.

* `isLoaded_register`, `isLoaded_markUnavailable`: what the two ways to change the registry do to a language.
* `require_eq_ok`: a language can be required exactly if it is loaded.
-/

namespace Chunkwise

/-- The grammars themselves: the tree of every text of every language. -/
abbrev Parser := Language → Text → SyntaxTree

/-- The languages with a working grammar, and what was found wrong with others. -/
structure Grammars where
  loaded : List Language := []
  failures : List (Language × String) := []

namespace Grammars

/-- Binds the grammar of a language. -/
def register (g : Grammars) (language : Language) : Grammars :=
  ⟨language :: g.loaded.filter (· != language), g.failures.filter (·.1 != language)⟩

/-- Records that the grammar of a language does not work. -/
def markUnavailable (g : Grammars) (language : Language) (reason : String) : Grammars :=
  ⟨g.loaded.filter (· != language), (language, reason) :: g.failures.filter (·.1 != language)⟩

/-- The registry with the grammars of some languages. -/
def ofLanguages (languages : List Language) : Grammars := languages.foldl register {}

/-- Whether a language has a working grammar. -/
def isLoaded (g : Grammars) (language : Language) : Bool := g.loaded.contains language

/-- What was found wrong with the grammar of a language. -/
def failure? (g : Grammars) (language : Language) : Option String :=
  (g.failures.find? (·.1 == language)).map (·.2)

/-- Whether an extension stands for a language with a working grammar. -/
def supports (g : Grammars) (ext : String) : Bool := (Language.ofExtension? ext).any g.isLoaded

/-- Accepts a language with a working grammar. -/
def require (g : Grammars) (language : Language) : Except ChunkError Unit :=
  if g.isLoaded language then .ok ()
  else .error (.grammarUnavailable language.name ((g.failure? language).getD "not requested at startup"))

/-- Every known extension, and whether its language has a working grammar. -/
def status (g : Grammars) : Named Bool := Named.ofList (Language.allExtensions.map fun ext => (ext, g.supports ext))

/-- The languages with a working grammar, in declaration order. -/
def loadedLanguages (g : Grammars) : List Language := Language.all.filter g.isLoaded

/-- Why the texts of an extension are not parsed, if they are not. -/
def errorMessage? (g : Grammars) (extension : String) : Option String :=
  let ext := Path.dropDots extension
  match Language.ofExtension? ext with
  | none => some s!"No grammar is known for extension '.{ext}'; files are split with the fallback chunker"
  | some language =>
    if g.isLoaded language then none
    else match g.failure? language with
      | some reason => some s!"Grammar for {language.name} failed to load: {reason}"
      | none => some s!"Grammar for {language.name} was not requested at startup"

/-- The parser of a language with a working grammar. -/
def parser? (g : Grammars) (parser : Parser) (language : Language) : Option (Text → SyntaxTree) :=
  if g.isLoaded language then some (parser language) else none

/-- The tree of a text of a language with a working grammar. -/
def parse (g : Grammars) (parser : Parser) (language : Language) (text : Text) : Except ParseError SyntaxTree :=
  if g.isLoaded language then .ok (parser language text)
  else .error ⟨language.name, "grammar not loaded"⟩

/-- The language that an extension stands for. -/
def languageOf (ext : String) : Except ParseError Language :=
  match Language.ofExtension? ext with
  | some language => .ok language
  | none => .error ⟨ext, "no grammar is known for this extension"⟩

/-- What a tree says of its text. -/
structure Analysis where
  symbols : List Symbol
  /-- Lines where a chunk may start. -/
  boundaries : List Nat
  hasErrors : Bool

/-- What the tree of a text says, for the language that an extension stands for. -/
def analyze (g : Grammars) (parser : Parser) (text : Text) (ext : String) : Except ParseError Analysis := do
  let language ← languageOf ext
  let tree ← g.parse parser language text
  let symbols := tree.symbols language text
  return ⟨symbols, Symbol.boundaryLines symbols, tree.hasErrors⟩

/-- Binding the grammar of a language loads it and leaves the others. -/
theorem isLoaded_register {g : Grammars} {a b : Language} :
    (g.register a).isLoaded b = (b == a || g.isLoaded b) := by
  by_cases h : b = a <;> simp [register, isLoaded, h]

/-- A grammar that does not work is not loaded; the others stay. -/
theorem isLoaded_markUnavailable {g : Grammars} {a b : Language} {reason : String} :
    (g.markUnavailable a reason).isLoaded b = (b != a && g.isLoaded b) := by
  by_cases h : b = a
  · simp [markUnavailable, isLoaded, h]
  · simp [markUnavailable, isLoaded, h]

/-- A language can be required exactly if it is loaded. -/
theorem require_eq_ok {g : Grammars} {language : Language} :
    g.require language = .ok () ↔ g.isLoaded language := by
  rw [require]; split <;> simp_all

end Grammars
end Chunkwise
