import Chunkwise.Config.File
import Chunkwise.Proofs.Named
import Chunkwise.Proofs.Text.ByteOrder

/-!
# A file over the defaults

The strategies of a configuration file are in the order of their keys (`FileConfig.ordered_of_ofSetting?`). Laid over a
configuration they are kept under the normal forms of these, so that of several keys for an extension the greatest one
counts (`FileConfig.strategy?_overlay`). What a file does not say is as in the configuration below it, and a file can be
loaded exactly if it is valid over the defaults (`FileConfig.overlay_overrides`).
-/

namespace Chunkwise

theorem Config.ordered_of_strategiesOf? {setting : Setting} {strategies : Named Strategy}
    (h : Config.strategiesOf? setting = some strategies) : Named.Ordered strategies := by
  simp only [Config.strategiesOf?, Option.bind_eq_bind, Option.bind_eq_some_iff, Option.some.injEq] at h
  obtain ⟨_, -, entries, -, rfl⟩ := h
  exact Named.ordered_ofList entries

namespace FileConfig

variable {file : FileConfig} {ext : String} {strategy : Strategy}

theorem ordered_of_ofSetting? {setting : Setting} (h : ofSetting? setting = some file) :
    Named.Ordered file.strategies := by
  simp only [ofSetting?, Option.bind_eq_bind, Option.bind_eq_some_iff, Option.some.injEq] at h
  obtain ⟨field, -, enabled, -, ast, -, size, -, strategies, hstrategies, fallback, -, rfl⟩ := h
  cases hfield : field "strategies" with
  | none =>
    rw [hfield] at hstrategies
    cases hstrategies
    exact List.Pairwise.nil
  | some setting =>
    rw [hfield] at hstrategies
    exact Config.ordered_of_strategiesOf? hstrategies

/-- The keys of a decoded file are in order, each once. -/
theorem ordered_of_decode? {format : ConfigFormat} {text : Text} (h : format.decode? text = some file) :
    Named.Ordered file.strategies := by
  obtain ⟨setting, -, hfile⟩ := Option.bind_eq_some_iff.1 h
  exact ordered_of_ofSetting? hfile

/-- Whether a file has a strategy for an extension: it stands under the key that is the greatest, byte by byte, of those
with the normal form of the extension. -/
def Gives (file : FileConfig) (ext : String) (strategy : Strategy) : Prop :=
  ∃ key, (key, strategy) ∈ file.strategies ∧ Config.normalExtension key = Config.normalExtension ext ∧
    ∀ e ∈ file.strategies, Config.normalExtension e.1 = Config.normalExtension ext →
      e.1 = key ∨ bytesOf e.1 < bytesOf key

/-- **The strategy of a file over a configuration** is that of the file, if it has one for the extension. -/
theorem strategy?_overlay (h : Named.Ordered file.strategies) (base : Config) (ext : String) :
    (∃ strategy, file.Gives ext strategy ∧ (file.overlay base).strategy? ext = some strategy) ∨
      ((∀ e ∈ file.strategies, Config.normalExtension e.1 ≠ Config.normalExtension ext) ∧
        (file.overlay base).strategy? ext = base.strategy? ext) := by
  simp only [Config.strategy?, overlay, Named.find?_insertAll]
  rcases h.find?_reverse_rename Config.normalExtension (Config.normalExtension ext) with
    ⟨key, strategy, ⟨hmem, hkey, hgreatest⟩, hfind⟩ | ⟨hnone, hfind⟩
  · refine Or.inl ⟨strategy, ⟨key, hmem, hkey, fun e he hname => ?_⟩, by rw [hfind, Option.some_or]⟩
    exact (hgreatest e he hname).imp_right lt_iff_bytesOf_lt.1
  · exact Or.inr ⟨hnone, by rw [hfind, Option.none_or]⟩

/-- **A file overrides the defaults key by key.** The strategies of a decoded file are in order; over the defaults an
extension has the whole entry of the file whose key has its normal form, of several ones the greatest, and that of the
defaults if there is none. What else the file says holds in place of the defaults. Loading gives this very configuration
if it is valid, and nothing otherwise. -/
theorem overlay_overrides :
    (∀ (format : ConfigFormat) (text : Text) (file : FileConfig), format.decode? text = some file →
      Named.Ordered file.strategies) ∧
    ∀ file : FileConfig, Named.Ordered file.strategies →
      (∀ ext,
        (∃ strategy, file.Gives ext strategy ∧ (file.overlay Config.default).strategy? ext = some strategy) ∨
        ((∀ e ∈ file.strategies, Config.normalExtension e.1 ≠ Config.normalExtension ext) ∧
          (file.overlay Config.default).strategy? ext = Config.default.strategy? ext)) ∧
      (file.overlay Config.default).enabled = file.enabled.getD Config.default.enabled ∧
      (file.overlay Config.default).useAstParsing = file.useAstParsing.getD Config.default.useAstParsing ∧
      (file.overlay Config.default).maxFileSizeMb = file.maxFileSizeMb.getD Config.default.maxFileSizeMb ∧
      (file.overlay Config.default).fallback = file.fallback.getD Config.default.fallback ∧
      ∀ (tree : FileTree) (path : String) (format : ConfigFormat) (text : Text),
        ConfigFormat.ofPath? path = some format → tree.read path = .ok text → format.decode? text = some file →
        ∀ c, Config.load tree path = .ok c ↔
          (file.overlay Config.default).validate = .ok () ∧ c = file.overlay Config.default := by
  refine ⟨fun format text file h => ordered_of_decode? h, fun file hordered => ?_⟩
  refine ⟨strategy?_overlay hordered Config.default, rfl, rfl, rfl, rfl, ?_⟩
  intro tree path format text hformat htext hfile c
  simp only [Config.load, hformat, htext, hfile]
  exact Config.checked_eq_ok

/-- Two entries for one extension. -/
def doubledSettings : String := "[strategies.'.RS']\nchunk_overlap = 70\n[strategies.'rs ']\nchunk_overlap = 90\n"

def doubledTree : FileTree := { root := .folder [(.of "a.toml", .text doubledSettings)] }

/-- The entry whose key ends in a blank counts, with what it leaves open as in any entry; other extensions are as by
default. -/
theorem overlay_overrides_doubled :
    ∃ file, ConfigFormat.toml.decode? doubledSettings.toList = some file ∧ Named.Ordered file.strategies ∧
      Config.load doubledTree "a.toml" = .ok (file.overlay Config.default) ∧
      (file.overlay Config.default).strategy? ".rs" = some { chunkOverlap := 90 } ∧
      (file.overlay Config.default).strategy? "PY" = Config.default.strategy? "PY" := by
  have hformat : ConfigFormat.ofPath? "a.toml" = some .toml := by decide +kernel
  have hsome : (doubledTree.read "a.toml").toOption = some doubledSettings.toList := by decide +kernel
  have hread : doubledTree.read "a.toml" = .ok doubledSettings.toList := by
    cases hread : doubledTree.read "a.toml" with
    | error e =>
      rw [hread] at hsome
      cases hsome
    | ok text =>
      rw [hread] at hsome
      rw [Option.some.inj hsome]
  have hstrategies : (ConfigFormat.toml.decode? doubledSettings.toList).map (·.strategies) =
      some [(".RS", { chunkOverlap := 70 }), ("rs ", { chunkOverlap := 90 })] := by decide +kernel
  obtain ⟨file, hfile, hentries⟩ := Option.map_eq_some_iff.1 hstrategies
  have hordered := overlay_overrides.1 _ _ file hfile
  obtain ⟨hstrategy, -, -, -, -, hload⟩ := overlay_overrides.2 file hordered
  refine ⟨file, hfile, hordered, ?_, ?_, ?_⟩
  · have hloaded : (Config.load doubledTree "a.toml").toOption.isSome := by decide +kernel
    cases hconfig : Config.load doubledTree "a.toml" with
    | error e =>
      rw [hconfig] at hloaded
      cases hloaded
    | ok config => rw [((hload _ _ _ _ hformat hread hfile config).1 hconfig).2]
  · rcases hstrategy ".rs" with ⟨strategy, ⟨key, hmem, -, hgreatest⟩, hfound⟩ | ⟨hnone, -⟩
    · rw [hentries] at hmem hgreatest
      simp only [List.mem_cons, Prod.mk.injEq, List.not_mem_nil, or_false] at hmem
      rcases hmem with ⟨rfl, rfl⟩ | ⟨rfl, rfl⟩
      · have hbehind := hgreatest ("rs ", { chunkOverlap := 90 }) (by simp) (by decide +kernel)
        exact absurd hbehind (by decide +kernel)
      · exact hfound
    · rw [hentries] at hnone
      exact absurd (by decide +kernel) (hnone _ List.mem_cons_self)
  · rcases hstrategy "PY" with ⟨strategy, ⟨key, hmem, hkey, -⟩, -⟩ | ⟨-, hfound⟩
    · rw [hentries] at hmem
      simp only [List.mem_cons, Prod.mk.injEq, List.not_mem_nil, or_false] at hmem
      rcases hmem with ⟨rfl, -⟩ | ⟨rfl, -⟩
      · exact absurd hkey (by decide +kernel)
      · exact absurd hkey (by decide +kernel)
    · exact hfound

end FileConfig
end Chunkwise
