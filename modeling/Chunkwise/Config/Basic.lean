import Chunkwise.Named
import Chunkwise.Path
import Chunkwise.Strategy
import Chunkwise.Decimal.Text
import Chunkwise.Failure
import Chunkwise.Text.Blank

/-!
# Configurations

The switches, the size limit and the strategies of the engine. A configuration file says some of them and is laid
over the defaults: an entry of the file replaces the default one for its extension.
-/

namespace Chunkwise

/-- The whole configuration. -/
structure Config where
  /-- Whether documents are cut by their structure at all. -/
  enabled : Bool
  /-- Whether grammars are used. -/
  useAstParsing : Bool
  /-- Size limit of documents, in units of 2^20 bytes. -/
  maxFileSizeMb : Float
  /-- Strategies by extension. -/
  strategies : Named Strategy
  fallback : FallbackSizes

namespace Config

/-- The built-in strategies. Verbose languages have larger chunks. -/
def defaultStrategies : Named Strategy :=
  Named.ofList
    [("py", .code 2000 200), ("pyw", .code 2000 200), ("js", .code 1500 150), ("jsx", .code 1500 150),
     ("mjs", .code 1500 150), ("cjs", .code 1500 150), ("ts", .code 1500 150), ("tsx", .code 1500 150),
     ("rs", .code 2000 200), ("go", .code 2000 200), ("java", .code 2500 250), ("cs", .code 2500 250),
     ("md", .markup 1500 100), ("markdown", .markup 1500 100)]

/-- The built-in configuration. -/
def default : Config :=
  { enabled := true, useAstParsing := true, maxFileSizeMb := 10.0, strategies := defaultStrategies, fallback := {} }

/-- An extension in the form that strategies are kept under: lower case, no blanks around it, no leading dots. -/
def normalExtension (ext : String) : String := lowered (Path.dropDots (trimmed ext))

/-- The strategy for an extension in any form. -/
def strategy? (c : Config) (ext : String) : Option Strategy := c.strategies.find? (normalExtension ext)

/-- The size limit in bytes; one beyond a word is the greatest word. -/
def maxFileSizeBytes (c : Config) : Nat := (c.maxFileSizeMb * 1024.0 * 1024.0).toUInt64.toNat

/-- Accepts the strategies, or says what is wrong with the first bad one. -/
def validateStrategies : Named Strategy → Except String Unit
  | [] => .ok ()
  | (ext, strategy) :: rest =>
    match strategy.validate with
    | .error e => .error s!"strategy '{ext}': {e}"
    | .ok () => validateStrategies rest

/-- Accepts a configuration, or says what is wrong with it. -/
def validate (c : Config) : Except String Unit :=
  if !(c.maxFileSizeMb.isFinite && 0.0 < c.maxFileSizeMb) then
    .error s!"max_file_size_mb ({Decimal.plainText c.maxFileSizeMb}) must be > 0"
  else
    match validateStrategies c.strategies with
    | .error e => .error e
    | .ok () => c.fallback.validate

/-- A configuration as an object, all by name. -/
def toJson (c : Config) : Json :=
  .obj
    [("enabled", .bool c.enabled),
     ("fallback", c.fallback.toJson),
     ("max_file_size_mb", .float c.maxFileSizeMb),
     ("strategies", .obj (c.strategies.map fun e => (e.1, e.2.toJson))),
     ("use_ast_parsing", .bool c.useAstParsing)]

/-- The names of the fields, in order. -/
def fieldNames : List String := ["enabled", "use_ast_parsing", "max_file_size_mb", "strategies", "fallback"]

/-- Strategies by extension, the last one of each. -/
def strategiesOf? (setting : Setting) : Option (Named Strategy) := do
  let entries ← setting.entries?
  some (Named.ofList (← entries.mapM fun e => (Strategy.ofSetting? e.2).map (e.1, ·)))

/-- The configuration of a setting; missing fields take their defaults. -/
def ofSetting? (setting : Setting) : Option Config := do
  let field ← setting.record? fieldNames
  some
    { enabled := ← Setting.field? Setting.bool? true (field "enabled")
      useAstParsing := ← Setting.field? Setting.bool? true (field "use_ast_parsing")
      maxFileSizeMb := ← Setting.field? Setting.number? 10.0 (field "max_file_size_mb")
      strategies := ← Setting.field? strategiesOf? defaultStrategies (field "strategies")
      fallback := ← Setting.field? FallbackSizes.ofSetting? {} (field "fallback") }

/-- Whether two configurations say the same. -/
def same (a b : Config) : Bool :=
  a.enabled == b.enabled && a.useAstParsing == b.useAstParsing && a.maxFileSizeMb == b.maxFileSizeMb
    && a.strategies == b.strategies && a.fallback == b.fallback

end Config

/-- What a configuration file says. -/
structure FileConfig where
  enabled : Option Bool := none
  useAstParsing : Option Bool := none
  maxFileSizeMb : Option Float := none
  strategies : Named Strategy := []
  fallback : Option FallbackSizes := none

namespace FileConfig

/-- The file of a setting; what it does not say stays open. -/
def ofSetting? (setting : Setting) : Option FileConfig := do
  let field ← setting.record? Config.fieldNames
  some
    { enabled := ← Setting.optional? Setting.bool? (field "enabled")
      useAstParsing := ← Setting.optional? Setting.bool? (field "use_ast_parsing")
      maxFileSizeMb := ← Setting.optional? Setting.number? (field "max_file_size_mb")
      strategies := ← Setting.field? Config.strategiesOf? [] (field "strategies")
      fallback := ← Setting.optional? FallbackSizes.ofSetting? (field "fallback") }

/-- What a file says, over a configuration. -/
def overlay (file : FileConfig) (base : Config) : Config :=
  { enabled := file.enabled.getD base.enabled
    useAstParsing := file.useAstParsing.getD base.useAstParsing
    maxFileSizeMb := file.maxFileSizeMb.getD base.maxFileSizeMb
    strategies := Named.insertAll (file.strategies.map fun e => (Config.normalExtension e.1, e.2)) base.strategies
    fallback := file.fallback.getD base.fallback }

end FileConfig
end Chunkwise
