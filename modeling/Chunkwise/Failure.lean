/-!
# Failures

What can go wrong, by cause, with its wording; and the two ways in which cutting a document fails: with an error,
or by breaking down with a message or without one.
-/

namespace Chunkwise

/-- A text that cannot be parsed. -/
structure ParseError where
  language : String
  reason : String
deriving DecidableEq, Repr

/-- The wording of a parse error. -/
def ParseError.message (e : ParseError) : String := s!"Parse unavailable for {e.language}: {e.reason}"

/-- Why reading from a file tree fails. -/
inductive ReadError where
  | notFound
  | isDirectory
  | notDirectory
  | notText
  /-- A part of the path, or the path, is too long. -/
  | nameTooLong
  /-- A path with a NUL. -/
  | nulInName
  | denied
deriving DecidableEq, Repr

/-- The wording of a read error. -/
def ReadError.message : ReadError → String
  | notFound => "No such file or directory (os error 2)"
  | isDirectory => "Is a directory (os error 21)"
  | notDirectory => "Not a directory (os error 20)"
  | notText => "stream did not contain valid UTF-8"
  | nameTooLong => "File name too long (os error 36)"
  | nulInName => "file name contained an unexpected NUL byte"
  | denied => "Permission denied (os error 13)"

/-- A directory that cannot be gone through. -/
structure WalkError where
  path : String
  reason : ReadError
deriving DecidableEq, Repr

namespace WalkError

/-- The wording of an error on the way through directories. -/
def message (e : WalkError) : String := s!"IO error for operation on {e.path}: {e.reason.message}"

/-- An error with what caused it, the cause last. -/
def chain (e : WalkError) : List String := [e.message, e.reason.message]

end WalkError

/-- An error, by cause. -/
inductive ChunkError where
  /-- The grammar of a language is not loaded. -/
  | grammarUnavailable (language reason : String)
  /-- A text cannot be parsed. -/
  | parseUnavailable (error : ParseError)
  /-- No language has this name or extension. -/
  | unsupportedLanguage (name : String)
  /-- A configuration breaks a rule. -/
  | invalidConfig (message : String)
  /-- The name of a configuration file tells no format. -/
  | unknownFormat (path : String)
  /-- A configuration file is not written in its format, or says something else than a configuration. -/
  | undecodable (path : String)
  /-- A document is larger than allowed. -/
  | documentTooLarge (filePath : String) (size limit : Nat)
  /-- A file cannot be read. -/
  | unreadable (error : ReadError)
deriving DecidableEq, Repr

namespace ChunkError

/-- The wording of an error. What is wrong inside a file that cannot be decoded is not told. -/
def message : ChunkError → String
  | grammarUnavailable language reason => s!"Grammar unavailable for {language}: {reason}"
  | parseUnavailable e => e.message
  | unsupportedLanguage name => s!"Unsupported language: {name}"
  | invalidConfig message => s!"Invalid configuration: {message}"
  | unknownFormat path =>
    s!"Invalid configuration format in {path}: expected a .toml, .yaml, .yml or .json file"
  | undecodable path => s!"Invalid configuration format in {path}"
  | documentTooLarge filePath size limit =>
    s!"Document {filePath} is too large: {size} bytes (limit {limit} bytes)"
  | unreadable e => s!"IO error: {e.message}"

/-- An error with what caused it, the cause last. -/
def chain (e : ChunkError) : List String :=
  e.message :: match e with
    | unreadable cause => [cause.message]
    | _ => []

/-- Whether an error concerns one document alone. -/
def isDocumentScoped : ChunkError → Bool
  | parseUnavailable _ | documentTooLarge .. | unsupportedLanguage _ => true
  | _ => false

end ChunkError

/-- How cutting a document fails. -/
inductive Failure where
  | error (e : ChunkError)
  /-- The chunker broke down, with what it said. -/
  | breakdown (said : Option String)
deriving DecidableEq, Repr

/-- Why a document is left out of a batch. -/
def Failure.reason : Failure → String
  | error e => e.message
  | breakdown none => "chunker panicked"
  | breakdown (some said) => s!"chunker panicked: {said}"

end Chunkwise
