import Chunkwise.Config.Basic
import Chunkwise.FileTree
import Chunkwise.Json.Reader
import Chunkwise.Setting.Toml
import Chunkwise.Setting.Yaml

/-!
# Configuration files

A configuration file is in one of three formats, told by the extension of its path. What it says is laid over the
defaults, and the outcome must be a valid configuration.

* `load_eq_ok`: when a file can be loaded, and what comes of it.
-/

namespace Chunkwise

/-- The format of a configuration file. -/
inductive ConfigFormat where
  | toml
  | yaml
  | json
deriving DecidableEq, Repr

namespace ConfigFormat

/-- The format of an extension in lower case. -/
def ofExtension? : String → Option ConfigFormat
  | "toml" => some toml
  | "yaml" => some yaml
  | "yml" => some yaml
  | "json" => some json
  | _ => none

/-- The format that a path tells. -/
def ofPath? (path : String) : Option ConfigFormat := (Path.extension? path).bind ofExtension?

/-- What a text in a format says. A blank text says nothing in YAML, and an empty one in TOML. -/
def setting? (format : ConfigFormat) (text : Text) : Option Setting :=
  match format with
  | toml => Toml.parse? text
  | yaml => if text.isBlank then some (.table []) else Yaml.parse? text
  | json => (Json.parse? text).map Json.toSetting

/-- What a text in a format says as a configuration file. -/
def decode? (format : ConfigFormat) (text : Text) : Option FileConfig :=
  (format.setting? text).bind FileConfig.ofSetting?

end ConfigFormat

namespace Config

/-- A configuration that has been checked. -/
def checked (c : Config) : Except ChunkError Config :=
  match c.validate with
  | .ok () => .ok c
  | .error message => .error (.invalidConfig message)

/-- The configuration of a file over the defaults. -/
def load (tree : FileTree) (path : String) : Except ChunkError Config :=
  match ConfigFormat.ofPath? path with
  | none => .error (.unknownFormat path)
  | some format =>
    match tree.read path with
    | .error e => .error (.unreadable e)
    | .ok text =>
      match format.decode? text with
      | none => .error (.undecodable path)
      | some file => (file.overlay default).checked

/-- A checked configuration is valid, and the same. -/
theorem checked_eq_ok {c d : Config} : c.checked = .ok d ↔ c.validate = .ok () ∧ d = c := by
  rw [checked]
  cases h : c.validate with
  | error e => simp
  | ok u => simp [eq_comm]

/-- A file can be loaded if its path tells a format, its text is a configuration in that format, and that
configuration over the defaults is valid. -/
theorem load_eq_ok {tree : FileTree} {path : String} {c : Config} :
    load tree path = .ok c ↔ ∃ format text file, ConfigFormat.ofPath? path = some format ∧
      tree.read path = .ok text ∧ format.decode? text = some file ∧
      (file.overlay default).validate = .ok () ∧ c = file.overlay default := by
  constructor
  · intro h
    unfold load at h
    split at h
    · cases h
    · rename_i format hformat
      split at h
      · cases h
      · rename_i text htext
        split at h
        · cases h
        · rename_i file hfile
          exact ⟨format, text, file, hformat, htext, hfile, checked_eq_ok.1 h⟩
  · rintro ⟨format, text, file, hformat, htext, hfile, hvalid⟩
    simp only [load, hformat, htext, hfile]
    exact checked_eq_ok.2 hvalid

end Config
end Chunkwise
