import Chunkwise.Failure
import Chunkwise.Language

/-!
# What can go wrong in a run

The problems that end a run, each with its wording and, below it, what caused it. Several causes are numbered, and
further lines of a cause are indented like its first one.
-/

namespace Chunkwise
namespace Command

/-- Why a run ends without an answer. -/
inductive Problem where
  /-- The configuration file cannot be loaded. -/
  | config (path : String) (error : ChunkError)
  /-- A required grammar is not loaded. -/
  | grammar (language : Language) (error : ChunkError)
  | noPaths
  | missingPath (path : String)
  /-- What is below a path cannot be gone through. -/
  | walk (path : String) (error : WalkError)
deriving DecidableEq, Repr

namespace Problem

/-- The wording of a problem. -/
def message : Problem → String
  | config path _ => s!"failed to load config {path}"
  | grammar language _ => s!"required grammar {language.name} is unavailable"
  | noPaths => "no input paths given (use --status to inspect the engine)"
  | missingPath path => s!"path does not exist: {path}"
  | walk path _ => s!"failed to walk {path}"

/-- What caused a problem, the deepest cause last. -/
def causes : Problem → List String
  | config _ e => e.chain
  | grammar _ e => e.chain
  | noPaths => []
  | missingPath _ => []
  | walk _ e => e.chain

/-- A cause with what stands before its first line and before its other lines. -/
def indented (lead : String) (cause : String) : String :=
  let below := String.ofList (List.replicate lead.length ' ')
  lead ++ String.ofList (cause.toList.flatMap fun c => if c = '\n' then '\n' :: below.toList else [c])

/-- The lines of some causes. -/
def causeLines : List String → List String
  | [cause] => [indented "    " cause]
  | causes => causes.zipIdx.map fun (cause, i) =>
    indented (String.ofList (List.replicate (5 - (toString i).length) ' ') ++ toString i ++ ": ") cause

/-- A problem with its causes. -/
def render (p : Problem) : String :=
  let head := "Error: " ++ p.message
  if p.causes.isEmpty then head else head ++ "\n\nCaused by:\n" ++ "\n".intercalate (causeLines p.causes)

end Problem
end Command
end Chunkwise
