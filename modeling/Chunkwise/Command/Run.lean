import Chunkwise.Chunk.Json
import Chunkwise.Command.Arguments
import Chunkwise.Command.Session
import Chunkwise.Config.Active
import Chunkwise.Engine
import Chunkwise.Json.Printer

/-!
# A run

A run loads the configuration, asks for the grammars it must have, and then describes the engine, or cuts the files
at the paths it is given and writes the chunks or figures about them, a chunk on each line.
-/

namespace Chunkwise
namespace Command

/-- In which order several workers do the documents of a batch, each by its index. -/
structure Schedule where
  order : Nat → List Nat
  /-- Every document is done once. -/
  perm : ∀ n, (order n).Perm (List.range n)

/-- The documents done one after the other. -/
def Schedule.inTurn : Schedule := ⟨List.range, fun _ => .refl _⟩

/-- What a run works with. -/
structure Setup where
  files : FileTree
  /-- The configuration file that the environment names. -/
  environment : Option String := none
  grammars : Grammars
  parser : Parser
  /-- What the workers make of a run that may use several. -/
  schedule : Schedule := .inTurn

/-! ## Before the documents -/

/-- The configuration that is asked for, or else that of the environment. -/
def configuration (s : Setup) (v : Invocation) : Except Problem ActiveConfig :=
  match v.config with
  | none => .ok (ActiveConfig.ofEnvironment s.files s.environment)
  | some path =>
    match ActiveConfig.builtIn.load s.files path with
    | (active, .ok ()) => .ok active
    | (_, .error e) => .error (.config path e)

/-- Accepts languages with a grammar. -/
def requireAll (g : Grammars) : List Language → Except Problem Unit
  | [] => .ok ()
  | language :: rest =>
    match g.require language with
    | .error e => .error (.grammar language e)
    | .ok () => requireAll g rest

/-! ## Documents -/

/-- The document of a text at a path. -/
def documentOf (found : Bytes × Text) : Document := ⟨found.2, { filePath := shown found.1 }⟩

/-- The documents at or below a path. -/
def documentsAt (files : FileTree) (path : Bytes) : Except Problem (List Document) :=
  match files.resolve path with
  | .error _ => .error (.missingPath (shown path))
  | .ok entry =>
    match files.texts path entry with
    | .error e => .error (.walk (shown path) e)
    | .ok found => .ok (found.map documentOf)

/-- The documents at or below paths, path by path. -/
def collect (files : FileTree) : List Bytes → Except Problem (List Document)
  | [] => .ok []
  | path :: rest =>
    match documentsAt files path with
    | .error problem => .error problem
    | .ok first =>
      match collect files rest with
      | .error problem => .error problem
      | .ok others => .ok (first ++ others)

/-! ## Reports -/

/-- Why the extensions of known languages are not cut by their structure, where they are not. -/
def engineErrors (e : Engine) : Named String :=
  e.grammars.status.filterMap fun entry => (e.errorMessage? entry.1).map (entry.1, ·)

/-- The engine described. -/
def statusReport (e : Engine) (source : Option String) : Json :=
  .obj
    [("grammars", .obj (e.grammars.status.map fun g => (g.1, .bool g.2))),
     ("errors", .obj ((engineErrors e).map fun m => (m.1, .str m.2))),
     ("chunkers", .obj (e.chunkerInfo.map fun c => (c.1, .strings c.2))),
     ("config", e.config.toJson),
     ("config_source", Json.ofOption .str source)]

/-- Figures about the chunks of some files. -/
def statsReport (files : Nat) (outcome : Outcome) : Json :=
  let s := ChunkStats.ofChunks outcome.chunks
  .obj
    [("files", .count files),
     ("skipped", .count outcome.skipped.length),
     ("chunks", .count s.totalChunks),
     ("total_lines", .count s.totalLines),
     ("total_tokens", .count s.totalTokens),
     ("avg_tokens_per_chunk", .count s.averageTokens),
     ("min_tokens", .count s.minTokens),
     ("max_tokens", .count s.maxTokens),
     ("oversized_chunks", .count s.oversizedChunks),
     ("fallback_chunks", .count s.fallbackChunks),
     ("summary", .str s.summary)]

/-! ## The run -/

/-- The engine of a run, with the configuration in use. -/
def Setup.engine (s : Setup) (active : ActiveConfig) : Engine := .withBuiltIn s.parser active.config s.grammars

/-- What becomes of the documents of a run, shared out among workers if the run may use several. -/
def outcomeOf (s : Setup) (v : Invocation) (e : Engine) (documents : List Document) : Outcome :=
  if v.parallel then e.chunkAllShared (s.schedule.order documents.length) documents else e.chunkAll documents

/-- Writes figures about the chunks of some documents, or each chunk on a line. -/
def writeChunks (s : Setup) (v : Invocation) (e : Engine) (documents : List Document) : Session Unit :=
  let outcome := outcomeOf s v e documents
  if v.stats then Session.writeLine (statsReport documents.length outcome).pretty
  else outcome.chunks.forM fun chunk => Session.writeLine chunk.toJson.compact

/-- Writes a description of the engine, or what it makes of the documents at the paths. -/
def answer (s : Setup) (v : Invocation) (active : ActiveConfig) : Session Unit :=
  if v.status then Session.writeLine (statusReport (s.engine active) active.source).pretty
  else if v.paths.isEmpty then throw .noPaths
  else do
    let documents ← Session.ofExcept (collect s.files (v.paths.map bytesOf))
    writeChunks s v (s.engine active) documents

/-- A run: what is written, and the problem that ends it if there is one. -/
def run (s : Setup) (v : Invocation) : Session Unit := do
  let active ← Session.ofExcept (configuration s v)
  Session.ofExcept (requireAll s.grammars v.required)
  answer s v active

/-! ## The command -/

/-- The name and the version of the command. -/
def versionText : String := "context-chunk 0.1.1"

/-- The environment variable that names a configuration file. -/
def configVariable : String := "SEMANTIC_CHUNKER_CONFIG"

/-- How the command is used. -/
def helpText : String :=
  "\n".intercalate
    ["Split source files into structure-aware chunks",
     "",
     "Usage: context-chunk [OPTIONS] [PATHS]...",
     "",
     "Arguments:",
     "  [PATHS]...  Files or directories to chunk",
     "",
     "Options:",
     "  -c, --config <CONFIG>         " ++
       "Chunking config file (.toml, .yaml or .json); overrides SEMANTIC_CHUNKER_CONFIG",
     "      --status                  Print grammar status, registered chunkers and the active config, then exit",
     "      --stats                   Print a statistics summary instead of chunks",
     "      --parallel                Chunk files on all cores",
     "      --require-grammar <LANG>  Fail unless the grammar for this language loaded (repeatable)",
     "  -v, --verbose                 Enable verbose logging",
     "  -q, --quiet                   Quiet mode: log only warnings/errors (stdout is reserved for JSON)",
     "  -h, --help                    Print help",
     "  -V, --version                 Print version"]

/-- What the command leaves behind. -/
inductive Ending where
  /-- It has written these lines. -/
  | written (lines : List String)
  /-- It has come upon a problem, with these lines written before. -/
  | failed (problem : Problem) (lines : List String := [])
  /-- The arguments cannot be understood. -/
  | misused
deriving DecidableEq, Repr

namespace Ending

/-- How a run ends. -/
def ofRun : Except Problem Unit × List String → Ending
  | (.ok (), lines) => written lines
  | (.error problem, lines) => failed problem lines

/-- The exit code. -/
def code : Ending → Nat
  | written _ => 0
  | failed _ _ => 1
  | misused => 2

/-- The lines that are written. -/
def lines : Ending → List String
  | written lines => lines
  | failed _ lines => lines
  | misused => []

/-- What is written to the standard output. -/
def output (ending : Ending) : String := String.join (ending.lines.map (· ++ "\n"))

/-- What is written to the standard error output. -/
def complaint : Ending → String
  | written _ => ""
  | failed problem _ => problem.render ++ "\n"
  | misused => "error: the arguments are not understood; try --help\n"

end Ending

/-- What the command does with its arguments. -/
def execute (s : Setup) (args : List String) : Ending :=
  match Order.ofArguments? args with
  | none => .misused
  | some .help => .written [helpText]
  | some .version => .written [versionText]
  | some (.run v) => .ofRun ((run s v).on [])

end Command
end Chunkwise
