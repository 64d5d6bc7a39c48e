import Chunkwise.Chunk.Stats
import Chunkwise.Chunker.Section
import Chunkwise.Chunker.Unit
import Chunkwise.Config.Basic

/-!
# The engine

Documents are given to the chunker that was registered last for their extension, if the grammar it needs is loaded,
and to the separators otherwise. A batch keeps the order of its documents and leaves out those that fail.

* `chunkAll_append`: batches add up, document by document.
* `chunkDocument_of_isBlank`: a blank document has no chunks.
-/

namespace Chunkwise

/-- The chunkers at hand, with the configuration and the grammars they work with. -/
structure Engine where
  config : Config
  grammars : Grammars
  /-- The chunkers in the order they were registered. -/
  chunkers : List Chunker := []
  /-- The index of the chunker of each extension. -/
  owners : Named Nat := []

/-- A document left out of a batch, and why. -/
structure Skipped where
  filePath : String
  reason : String
deriving DecidableEq, Repr

/-- What becomes of a batch. -/
structure Outcome where
  chunks : List Chunk := []
  skipped : List Skipped := []

namespace Outcome

/-- A batch of two batches. -/
def append (a b : Outcome) : Outcome := ⟨a.chunks ++ b.chunks, a.skipped ++ b.skipped⟩

/-- Adds what becomes of one document to what became of those behind it. -/
def add : Except Skipped (List Chunk) → Outcome → Outcome
  | .ok chunks, outcome => { outcome with chunks := chunks ++ outcome.chunks }
  | .error skipped, outcome => { outcome with skipped := skipped :: outcome.skipped }

/-- What becomes of the documents of a batch, in their order. -/
def ofResults (results : List (Except Skipped (List Chunk))) : Outcome := results.foldr add {}

end Outcome

namespace Engine

/-- Registers a chunker for the extensions it claims. This always succeeds. A debug log of extensions that are taken over
would not: it looks up the chunker that had the extension before the new one is in the list, and for an extension that
the new one claims twice that is the new one itself. Such a log is not kept here. -/
def register (e : Engine) (chunker : Chunker) : Engine :=
  { e with
    chunkers := e.chunkers ++ [chunker]
    owners := Named.insertAll (chunker.extensions.map (·, e.chunkers.length)) e.owners }

/-- The chunkers of all known languages. -/
def builtIn (parser : Parser) (grammars : Grammars) : List Chunker :=
  Language.codeLanguages.map (Chunker.code parser grammars) ++ [Chunker.markdown parser grammars]

/-- The engine with the chunkers of all known languages. -/
def withBuiltIn (parser : Parser) (config : Config) (grammars : Grammars) : Engine :=
  (builtIn parser grammars).foldl register { config, grammars }

/-- The chunker that was registered last for an extension. -/
def owner? (e : Engine) (ext : String) : Option Chunker := (e.owners.find? ext).bind (e.chunkers[·]?)

/-- The chunker of an extension, if the grammar it needs is loaded. -/
def usable? (e : Engine) (ext : String) : Option Chunker :=
  (e.owner? ext).filter fun c => c.language.all e.grammars.isLoaded

/-- The chunker that a document is given to. -/
def select (e : Engine) (ext : Option String) : Chunker :=
  if e.config.enabled && e.config.useAstParsing then (ext.bind e.usable?).getD Chunker.plain else Chunker.plain

/-- The chunker for a path. -/
def chunkerFor (e : Engine) (path : String) : Chunker := e.select (Path.extension? path)

/-- The strategy for an extension: that of the configuration where the document is cut by its structure, or where
grammars are not to be used; the fallback sizes elsewhere. -/
def strategyOf (e : Engine) (ext : Option String) : Strategy :=
  let fallback := e.config.fallback.toStrategy
  if !e.config.enabled then fallback
  else
    let structured := (ext.bind e.usable?).isSome
    match ext.bind e.config.strategy? with
    | some strategy => if structured || !e.config.useAstParsing then strategy else fallback
    | none => if structured then {} else fallback

/-- The strategy for a path. -/
def strategyFor (e : Engine) (path : String) : Strategy := e.strategyOf (Path.extension? path)

/-- The chunks of one document. A blank one has none, one beyond the size limit is an error. -/
def chunkDocument (e : Engine) (document : Document) : Except Failure (List Chunk) :=
  if document.content.isBlank then .ok []
  else
    let size := document.content.byteLen
    let limit := e.config.maxFileSizeBytes
    if limit < size then .error (.error (.documentTooLarge document.metadata.filePath size limit))
    else (e.select document.extension?).chunk document (e.strategyOf document.extension?)

/-- What becomes of a document by itself: one that fails is left out. -/
def isolated (e : Engine) (document : Document) : Except Skipped (List Chunk) :=
  match e.chunkDocument document with
  | .ok chunks => .ok chunks
  | .error failure => .error ⟨document.metadata.filePath, failure.reason⟩

/-- What becomes of a batch, document by document. -/
def chunkAll (e : Engine) (documents : List Document) : Outcome := .ofResults (documents.map e.isolated)

/-- Puts the result for a document into the place of that document. -/
def fill (e : Engine) (documents : List Document) (places : List (Option (Except Skipped (List Chunk))))
    (index : Nat) : List (Option (Except Skipped (List Chunk))) :=
  places.set index (documents[index]?.map e.isolated)

/-- What becomes of a batch whose documents are done in some other order, given by their indices, as it happens when
several workers share them out. -/
def chunkAllShared (e : Engine) (order : List Nat) (documents : List Document) : Outcome :=
  .ofResults ((order.foldl (e.fill documents) (List.replicate documents.length none)).filterMap id)

/-- The extensions that have a chunker. -/
def supportedExtensions (e : Engine) : List String := e.owners.names

/-- The extensions that each chunker has, by the names of the chunkers. -/
def chunkerInfo (e : Engine) : Named (List String) :=
  e.owners.foldl (fun info entry =>
    match e.chunkers[entry.2]? with
    | none => info
    | some chunker => info.insert chunker.name (((Named.find? chunker.name info).getD []) ++ [entry.1])) []

/-- Why documents of an extension are not cut by their structure, if they are not. -/
def errorMessage? (e : Engine) (extension : String) : Option String :=
  let ext := lowered (Path.dropDots extension)
  if (e.owners.find? ext).isNone then
    some s!"No chunker is registered for '.{ext}'; files are split with the fallback chunker"
  else e.grammars.errorMessage? ext

/-- A blank document has no chunks. -/
theorem chunkDocument_of_isBlank (e : Engine) {document : Document} (h : document.content.isBlank) :
    e.chunkDocument document = .ok [] := by
  rw [chunkDocument, if_pos h]

/-- Batches add up, document by document. -/
theorem chunkAll_append (e : Engine) (a b : List Document) :
    e.chunkAll (a ++ b) = (e.chunkAll a).append (e.chunkAll b) := by
  induction a with
  | nil => rfl
  | cons d a ih =>
    simp only [chunkAll, Outcome.ofResults, List.cons_append, List.map_cons, List.foldr_cons] at ih ⊢
    rw [ih]
    cases e.isolated d <;> simp [Outcome.add, Outcome.append]

end Engine
end Chunkwise
