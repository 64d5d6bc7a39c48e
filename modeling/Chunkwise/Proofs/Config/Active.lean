import Chunkwise.Config.Active

/-!
# A configuration in use is valid

A configuration comes into use in five ways (`Step`), one after another, while files and environment may change in
between. Whatever the steps, what is in use is the built-in configuration, that of a file under its path, or a valid one
from elsewhere (`Grounded`): one step leaves nothing else (`Grounded.step`), hence a run does not (`grounded_run`). All
of these are valid (`Grounded.valid`); `in_use_is_valid` says so of runs, with what the next step can do to the
configuration and to its path.
-/

namespace Chunkwise

namespace Config

variable {tree : FileTree} {path : String} {config : Config}

theorem validate_default : default.validate = .ok () := rfl

theorem validate_of_load (h : load tree path = .ok config) : config.validate = .ok () := by
  obtain ⟨_, _, file, -, -, -, hvalid, rfl⟩ := load_eq_ok.1 h
  exact hvalid

end Config

namespace ActiveConfig

variable {tree : FileTree} {path : String} {active fresh : ActiveConfig}

/-! ## Steps and runs -/

/-- A way to change what is in use, with the files and the environment at that time. -/
inductive Step where
  | startOver
  | load (tree : FileTree) (path : String)
  | loadOrBuiltIn (tree : FileTree) (path : String)
  | ofEnvironment (tree : FileTree) (path : Option String)
  | ofConfig (config : Config)

/-- What is in use after a step. A configuration that is refused leaves what there was. -/
def step (active : ActiveConfig) : Step → ActiveConfig
  | .startOver => builtIn
  | .load tree path => (active.load tree path).1
  | .loadOrBuiltIn tree path => loadOrBuiltIn tree path
  | .ofEnvironment tree path => ofEnvironment tree path
  | .ofConfig config =>
    match ofConfig config with
    | .ok fresh => fresh
    | .error _ => active

/-- What is in use after some steps, from the built-in configuration on. -/
def run (steps : List Step) : ActiveConfig := steps.foldl step builtIn

/-! ## Loading -/

/-- Whether the configuration of a file is in use, with the path of that file. -/
def Holds (tree : FileTree) (path : String) (active : ActiveConfig) : Prop :=
  Config.load tree path = .ok active.config ∧ active.source = some path

/-- A file is taken, configuration and path together, or refused without a change. -/
theorem load_cases (tree : FileTree) (path : String) (active : ActiveConfig) :
    (active.load tree path).2 = .ok () ∧ Holds tree path (active.load tree path).1 ∨
      ∃ e, Config.load tree path = .error e ∧ active.load tree path = (active, .error e) := by
  unfold load
  cases h : Config.load tree path with
  | ok config => exact Or.inl ⟨rfl, h, rfl⟩
  | error e => exact Or.inr ⟨e, rfl, rfl⟩

/-- The defaults stay only if the file cannot be loaded. -/
theorem loadOrBuiltIn_cases (tree : FileTree) (path : String) :
    Holds tree path (loadOrBuiltIn tree path) ∨
      (∃ e, Config.load tree path = .error e) ∧ loadOrBuiltIn tree path = builtIn := by
  rcases load_cases tree path builtIn with ⟨-, hholds⟩ | ⟨e, he, hkept⟩
  · exact Or.inl hholds
  · exact Or.inr ⟨⟨e, he⟩, congrArg Prod.fst hkept⟩

theorem ofEnvironment_of_ne (tree : FileTree) (h : path ≠ "") :
    ofEnvironment tree (some path) = loadOrBuiltIn tree path := by
  simp [ofEnvironment, Option.filter, h]

theorem ofConfig_eq_ok {config : Config} :
    ofConfig config = .ok fresh ↔ config.validate = .ok () ∧ fresh = { config } := by
  unfold ofConfig Config.checked
  cases config.validate with
  | error e => simp
  | ok u => simp [eq_comm]

/-! ## Where a configuration in use comes from -/

/-- The file that a step looks at. -/
def Step.file? : Step → Option (FileTree × String)
  | .load tree path | .loadOrBuiltIn tree path | .ofEnvironment tree (some path) => some (tree, path)
  | _ => none

/-- What can be in use after some steps: the built-in configuration, that of a file that a step looked at, or a valid
one that was given. -/
inductive Grounded (steps : List Step) : ActiveConfig → Prop where
  | builtIn : Grounded steps builtIn
  | file {s : Step} {tree : FileTree} {path : String} {active : ActiveConfig} (hs : s ∈ steps)
      (hfile : s.file? = some (tree, path)) (h : Holds tree path active) : Grounded steps active
  | given {config : Config} (hs : .ofConfig config ∈ steps) (h : config.validate = .ok ()) : Grounded steps { config }

variable {steps : List Step} {s : Step}

theorem Grounded.valid (h : Grounded steps active) : active.config.validate = .ok () := by
  cases h with
  | builtIn => exact Config.validate_default
  | file _ _ h => exact Config.validate_of_load h.1
  | given _ h => exact h

/-- The path in use is that of a file that was looked at, with the configuration in use. -/
theorem Grounded.exists_file (h : Grounded steps active) (hsource : active.source = some path) :
    ∃ s ∈ steps, ∃ tree, s.file? = some (tree, path) ∧ Config.load tree path = .ok active.config := by
  cases h with
  | builtIn => cases hsource
  | @file s tree p _ hs hfile h =>
    obtain ⟨hload, hpath⟩ := h
    have hp : p = path := Option.some.inj (hpath.symm.trans hsource)
    subst hp
    exact ⟨s, hs, tree, hfile, hload⟩
  | given => cases hsource

theorem grounded_loadOrBuiltIn (hs : s ∈ steps) (hfile : s.file? = some (tree, path)) :
    Grounded steps (loadOrBuiltIn tree path) := by
  rcases loadOrBuiltIn_cases tree path with h | ⟨-, h⟩
  · exact .file hs hfile h
  · rw [h]
    exact .builtIn

/-- A step leaves nothing in use that cannot be. -/
theorem Grounded.step (h : Grounded steps active) (hs : s ∈ steps) : Grounded steps (active.step s) := by
  cases s with
  | startOver => exact .builtIn
  | load tree path =>
    rcases load_cases tree path active with ⟨-, hholds⟩ | ⟨e, -, hkept⟩
    · exact .file hs rfl hholds
    · have hsame : active.step (.load tree path) = active := congrArg Prod.fst hkept
      rw [hsame]
      exact h
  | loadOrBuiltIn tree path => exact grounded_loadOrBuiltIn hs rfl
  | ofEnvironment tree named =>
    cases named with
    | none => exact .builtIn
    | some path =>
      by_cases hpath : path = ""
      · subst hpath
        exact .builtIn
      · rw [ActiveConfig.step, ofEnvironment_of_ne tree hpath]
        exact grounded_loadOrBuiltIn hs rfl
  | ofConfig config =>
    rw [ActiveConfig.step]
    split
    · rename_i fresh hfresh
      obtain ⟨hvalid, rfl⟩ := ofConfig_eq_ok.1 hfresh
      exact .given hs hvalid
    · exact h

theorem grounded_foldl_step (done : List Step) (h : Grounded steps active) (hdone : ∀ s ∈ done, s ∈ steps) :
    Grounded steps (done.foldl ActiveConfig.step active) := by
  induction done generalizing active with
  | nil => exact h
  | cons s done ih =>
    exact ih (h.step (hdone s List.mem_cons_self)) fun t ht => hdone t (List.mem_cons_of_mem _ ht)

theorem grounded_run (steps : List Step) : Grounded steps (run steps) :=
  grounded_foldl_step steps .builtIn fun _ hs => hs

/-- **What is in use is valid, after any steps.** If a path is kept with it, it is that of a file with this path, which a
step looked at. A file that is loaded next comes into use with its path, and one that cannot be loaded changes neither
the configuration nor the path; where the defaults are to be used instead, they are, without a path. A configuration
from elsewhere is taken exactly if it is valid. -/
theorem in_use_is_valid (steps : List Step) :
    (run steps).config.validate = .ok () ∧
      (∀ path, (run steps).source = some path → ∃ s ∈ steps, ∃ tree, s.file? = some (tree, path) ∧
        Config.load tree path = .ok (run steps).config) ∧
      (∀ tree path e, ((run steps).load tree path).2 = .error e →
        Config.load tree path = .error e ∧ ((run steps).load tree path).1 = run steps) ∧
      (∀ tree path, ((run steps).load tree path).2 = .ok () → Holds tree path ((run steps).load tree path).1) ∧
      (∀ tree path, Holds tree path (loadOrBuiltIn tree path) ∨
        (∃ e, Config.load tree path = .error e) ∧ loadOrBuiltIn tree path = ⟨Config.default, none⟩) ∧
      (∀ tree path, path ≠ "" → ofEnvironment tree (some path) = loadOrBuiltIn tree path) ∧
      (∀ tree, ofEnvironment tree (some "") = ⟨Config.default, none⟩ ∧
        ofEnvironment tree none = ⟨Config.default, none⟩) ∧
      ∀ config fresh, ofConfig config = .ok fresh ↔ config.validate = .ok () ∧ fresh = ⟨config, none⟩ := by
  have hgrounded := grounded_run steps
  refine ⟨hgrounded.valid, fun path => hgrounded.exists_file, fun tree path e herror => ?_, fun tree path hok => ?_,
    loadOrBuiltIn_cases, fun tree path => ofEnvironment_of_ne tree, fun tree => ⟨rfl, rfl⟩,
    fun config fresh => ofConfig_eq_ok⟩
  · rcases load_cases tree path (run steps) with ⟨hok, -⟩ | ⟨e', he', hkept⟩
    · rw [hok] at herror
      cases herror
    · rw [hkept] at herror ⊢
      cases herror
      exact ⟨he', rfl⟩
  · rcases load_cases tree path (run steps) with ⟨-, hholds⟩ | ⟨e, -, hkept⟩
    · exact hholds
    · rw [hkept] at hok
      cases hok

/-- A file that switches the engine off, and one that breaks a rule. -/
def settingsTree : FileTree :=
  { root := .folder [(.of "off.toml", .text "enabled = false\n"),
      (.of "zero.toml", .text "[fallback]\nchunk_size = 0\n")] }

/-- A bad file after a good one changes nothing. -/
theorem in_use_is_valid_refused :
    ((run [.load settingsTree "off.toml"]).source = some "off.toml" ∧
        (run [.load settingsTree "off.toml"]).config.enabled = false) ∧
      (run [.load settingsTree "off.toml"]).config.validate = .ok () ∧
      ∃ e, ((run [.load settingsTree "off.toml"]).load settingsTree "zero.toml").2 = .error e ∧
        ((run [.load settingsTree "off.toml"]).load settingsTree "zero.toml").1 =
          run [.load settingsTree "off.toml"] := by
  have hvalid := in_use_is_valid [.load settingsTree "off.toml"]
  have hrefused : ∃ e, ((run [.load settingsTree "off.toml"]).load settingsTree "zero.toml").2 = .error e := by
    rcases load_cases settingsTree "zero.toml" (run [.load settingsTree "off.toml"]) with ⟨-, hload, -⟩ | ⟨e, -, hkept⟩
    · have hnone : (Config.load settingsTree "zero.toml").toOption.isNone := by decide +kernel
      rw [hload] at hnone
      cases hnone
    · exact ⟨e, congrArg Prod.snd hkept⟩
  obtain ⟨e, he⟩ := hrefused
  exact ⟨⟨by decide +kernel, by decide +kernel⟩, hvalid.1, e, he, (hvalid.2.2.1 _ _ e he).2⟩

end ActiveConfig
end Chunkwise
