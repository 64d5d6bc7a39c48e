import Chunkwise.Config.File

/-!
# The configuration in use

The configuration that is in use, and the file it was loaded from. A file that cannot be loaded changes nothing.
-/

namespace Chunkwise

/-- A configuration and the file it comes from. -/
structure ActiveConfig where
  config : Config := Config.default
  /-- The path of the file; none for a configuration from elsewhere. -/
  source : Option String := none

namespace ActiveConfig

/-- The built-in configuration. -/
def builtIn : ActiveConfig := {}

/-- A valid configuration that comes from no file. -/
def ofConfig (c : Config) : Except ChunkError ActiveConfig :=
  match c.checked with
  | .ok config => .ok { config }
  | .error e => .error e

/-- Loads a file in place of what is in use. -/
def load (tree : FileTree) (path : String) (active : ActiveConfig) : ActiveConfig × Except ChunkError Unit :=
  match Config.load tree path with
  | .ok config => ({ config, source := some path }, .ok ())
  | .error e => (active, .error e)

/-- The configuration of a file, or the built-in one if it cannot be loaded. -/
def loadOrBuiltIn (tree : FileTree) (path : String) : ActiveConfig := (builtIn.load tree path).1

/-- The configuration of the file that the environment names, if it names one. -/
def ofEnvironment (tree : FileTree) (path : Option String) : ActiveConfig :=
  match path.filter (· ≠ "") with
  | some path => loadOrBuiltIn tree path
  | none => builtIn

/-- Whether the configuration says the same as the built-in one. -/
def isBuiltIn (active : ActiveConfig) : Bool := active.config.same Config.default

end ActiveConfig
end Chunkwise
