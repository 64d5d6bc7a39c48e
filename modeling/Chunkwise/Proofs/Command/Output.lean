import Chunkwise.Command.Run
import Chunkwise.Proofs.Engine.Batch
import Chunkwise.Proofs.Json.OneLine

/-!
# A failing run writes nothing

Everything that can stop a run comes before the first line: the configuration (`configuration_cases`), the required
grammars one after the other (`requireAll_cases`), and the paths, where it is the first one that leads nowhere, or to
something that cannot be gone through, that counts (`collect_cases`). A run either comes upon one of these problems with
nothing written, or it writes one report, or a chunk on each line, and ends well (`failing_runs_write_nothing`). A
configuration file that is asked for and cannot be loaded stops every run (`run_of_unloaded`).
-/

namespace Chunkwise
namespace Command

variable {s : Setup} {v : Invocation} {active : ActiveConfig}

/-! ## What a run needs -/

/-- Whether a configuration is the one for a run: that of the file that is asked for, or else that of the environment. -/
inductive Configured (s : Setup) (v : Invocation) : ActiveConfig → Prop where
  | file {path : String} {config : Config} (asked : v.config = some path)
      (loaded : Config.load s.files path = .ok config) : Configured s v ⟨config, some path⟩
  | environment (unasked : v.config = none) : Configured s v (ActiveConfig.ofEnvironment s.files s.environment)

/-- Whether a run has the configuration and the grammars it asks for. -/
structure Prepared (s : Setup) (v : Invocation) (active : ActiveConfig) : Prop where
  config : Configured s v active
  grammars : ∀ language ∈ v.required, s.grammars.isLoaded language

/-- Whether a path leads to something that can be gone through. -/
def Walked (files : FileTree) (path : Bytes) : Prop :=
  ∃ entry found, files.resolve path = .ok entry ∧ files.texts path entry = .ok found

/-- What stops a run, the first of what there is to stop it. -/
inductive Blocked (s : Setup) (v : Invocation) : Problem → Prop where
  | config {path : String} {e : ChunkError} (asked : v.config = some path)
      (unloaded : Config.load s.files path = .error e) : Blocked s v (.config path e)
  | grammar {active : ActiveConfig} {before after : List Language} {language : Language} {e : ChunkError}
      (config : Configured s v active) (required : v.required = before ++ language :: after)
      (loaded : ∀ l ∈ before, s.grammars.isLoaded l) (missing : s.grammars.require language = .error e) :
      Blocked s v (.grammar language e)
  | noPaths {active : ActiveConfig} (prepared : Prepared s v active) (status : v.status = false) (none : v.paths = []) :
      Blocked s v .noPaths
  | missingPath {active : ActiveConfig} {before after : List String} {path : String} (prepared : Prepared s v active)
      (status : v.status = false) (paths : v.paths = before ++ path :: after)
      (walked : ∀ p ∈ before, Walked s.files (bytesOf p)) (missing : ¬ s.files.hasPath (bytesOf path)) :
      Blocked s v (.missingPath path)
  | walk {active : ActiveConfig} {before after : List String} {path : String} {entry : FileTree.Entry} {e : WalkError}
      (prepared : Prepared s v active) (status : v.status = false) (paths : v.paths = before ++ path :: after)
      (walked : ∀ p ∈ before, Walked s.files (bytesOf p)) (found : s.files.resolve (bytesOf path) = .ok entry)
      (barred : s.files.texts (bytesOf path) entry = .error e) : Blocked s v (.walk path e)

/-- The documents at or below a path, none if it cannot be gone through. -/
def documentsBelow (files : FileTree) (path : Bytes) : List Document := (documentsAt files path).toOption.getD []

/-- The documents of a run, path by path. -/
def documents (s : Setup) (v : Invocation) : List Document :=
  v.paths.flatMap fun path => documentsBelow s.files (bytesOf path)

/-- What a run writes that nothing stops: a description of the engine, figures about the chunks, or a line for each
chunk, of the documents in their order. -/
inductive Writes (s : Setup) (v : Invocation) : List String → Prop where
  | status {active : ActiveConfig} (prepared : Prepared s v active) (status : v.status = true) :
      Writes s v [(statusReport (s.engine active) active.source).pretty]
  | stats {active : ActiveConfig} (prepared : Prepared s v active) (status : v.status = false) (paths : v.paths ≠ [])
      (walked : ∀ p ∈ v.paths, Walked s.files (bytesOf p)) (stats : v.stats = true) :
      Writes s v [(statsReport (documents s v).length ((s.engine active).chunkAll (documents s v))).pretty]
  | chunks {active : ActiveConfig} (prepared : Prepared s v active) (status : v.status = false) (paths : v.paths ≠ [])
      (walked : ∀ p ∈ v.paths, Walked s.files (bytesOf p)) (stats : v.stats = false) :
      Writes s v (((s.engine active).chunkAll (documents s v)).chunks.map fun chunk => chunk.toJson.compact)

/-! ## What can stop it -/

/-- A configuration is there unless one is asked for that cannot be loaded. -/
theorem configuration_cases (s : Setup) (v : Invocation) :
    (∃ active, Configured s v active ∧ configuration s v = .ok active) ∨
      ∃ problem, Blocked s v problem ∧ configuration s v = .error problem := by
  unfold configuration
  cases hasked : v.config with
  | none => exact Or.inl ⟨_, .environment hasked, rfl⟩
  | some path =>
    simp only [ActiveConfig.load]
    cases hload : Config.load s.files path with
    | ok config => exact Or.inl ⟨_, .file hasked hload, rfl⟩
    | error e => exact Or.inr ⟨_, .config hasked hload, rfl⟩

/-- Required grammars are all loaded, or there is a first one that is not. -/
theorem requireAll_cases (g : Grammars) (languages : List Language) :
    (requireAll g languages = .ok () ∧ ∀ language ∈ languages, g.isLoaded language) ∨
      ∃ before language after e, languages = before ++ language :: after ∧ (∀ l ∈ before, g.isLoaded l) ∧
        g.require language = .error e ∧ requireAll g languages = .error (.grammar language e) := by
  induction languages with
  | nil => exact Or.inl ⟨rfl, List.forall_mem_nil _⟩
  | cons first rest ih =>
    rw [requireAll]
    by_cases hfirst : g.isLoaded first
    · have hrequire : g.require first = .ok () := by rw [Grammars.require, if_pos hfirst]
      rw [hrequire]
      rcases ih with ⟨hok, hall⟩ | ⟨before, language, after, e, rfl, hbefore, hmissing, herror⟩
      · exact Or.inl ⟨hok, List.forall_mem_cons.2 ⟨hfirst, hall⟩⟩
      · exact Or.inr ⟨first :: before, language, after, e, rfl, List.forall_mem_cons.2 ⟨hfirst, hbefore⟩, hmissing,
          herror⟩
    · obtain ⟨e, hrequire⟩ : ∃ e, g.require first = .error e := ⟨_, by rw [Grammars.require, if_neg hfirst]⟩
      rw [hrequire]
      exact Or.inr ⟨[], first, rest, e, rfl, List.forall_mem_nil _, hrequire, rfl⟩

/-- What is at or below a path is found, or the path leads nowhere, or what is there cannot be gone through. -/
theorem documentsAt_cases (files : FileTree) (path : Bytes) :
    (Walked files path ∧ documentsAt files path = .ok (documentsBelow files path)) ∨
      (¬ files.hasPath path ∧ documentsAt files path = .error (.missingPath (shown path))) ∨
      ∃ entry e, files.resolve path = .ok entry ∧ files.texts path entry = .error e ∧
        documentsAt files path = .error (.walk (shown path) e) := by
  unfold documentsBelow documentsAt
  cases hresolve : files.resolve path with
  | error reason => exact Or.inr (Or.inl ⟨by simp [FileTree.hasPath, hresolve, Except.toOption], rfl⟩)
  | ok entry =>
    cases htexts : files.texts path entry with
    | error e => exact Or.inr (Or.inr ⟨entry, e, rfl, htexts, by simp only [htexts]⟩)
    | ok found =>
      refine Or.inl ⟨⟨entry, found, hresolve, htexts⟩, ?_⟩
      simp only [htexts]
      rfl

/-- Paths can all be gone through, or there is a first one that cannot. -/
theorem collect_cases (files : FileTree) (paths : List Bytes) :
    (collect files paths = .ok (paths.flatMap (documentsBelow files)) ∧ ∀ path ∈ paths, Walked files path) ∨
      ∃ before path after problem, paths = before ++ path :: after ∧ (∀ p ∈ before, Walked files p) ∧
        documentsAt files path = .error problem ∧ collect files paths = .error problem := by
  induction paths with
  | nil => exact Or.inl ⟨rfl, List.forall_mem_nil _⟩
  | cons first rest ih =>
    rw [collect]
    cases hfirst : documentsAt files first with
    | error problem => exact Or.inr ⟨[], first, rest, problem, rfl, List.forall_mem_nil _, hfirst, rfl⟩
    | ok documents =>
      rcases documentsAt_cases files first with ⟨hwalked, hown⟩ | ⟨-, hown⟩ | ⟨_, _, -, -, hown⟩ <;>
        cases hfirst.symm.trans hown
      rcases ih with ⟨hok, hall⟩ | ⟨before, path, after, problem, rfl, hbefore, hproblem, herror⟩
      · refine Or.inl ⟨?_, List.forall_mem_cons.2 ⟨hwalked, hall⟩⟩
        rw [hok, List.flatMap_cons]
      · refine Or.inr ⟨first :: before, path, after, problem, rfl, List.forall_mem_cons.2 ⟨hwalked, hbefore⟩, hproblem, ?_⟩
        rw [herror]

/-- The paths of a run can all be gone through, or the first one that cannot is what blocks it. -/
theorem collect_paths_cases (hprepared : Prepared s v active) (hstatus : v.status = false) :
    (collect s.files (v.paths.map bytesOf) = .ok (documents s v) ∧ ∀ p ∈ v.paths, Walked s.files (bytesOf p)) ∨
      ∃ problem, Blocked s v problem ∧ collect s.files (v.paths.map bytesOf) = .error problem := by
  rcases collect_cases s.files (v.paths.map bytesOf) with
    ⟨hok, hall⟩ | ⟨before, path, after, problem, hpaths, hbefore, hproblem, herror⟩
  · refine Or.inl ⟨?_, fun p hp => hall _ (List.mem_map_of_mem hp)⟩
    rw [hok, List.flatMap_map]
    rfl
  · obtain ⟨befores, rest, hsplit, rfl, hrest⟩ := List.map_eq_append_iff.1 hpaths
    obtain ⟨own, afters, rfl, rfl, -⟩ := List.map_eq_cons_iff.1 hrest
    have hwalked : ∀ p ∈ befores, Walked s.files (bytesOf p) := fun p hp => hbefore _ (List.mem_map_of_mem hp)
    refine Or.inr ⟨problem, ?_, herror⟩
    rcases documentsAt_cases s.files (bytesOf own) with ⟨-, hown⟩ | ⟨hmissing, hown⟩ | ⟨_, _, hfound, hbarred, hown⟩ <;>
      cases hproblem.symm.trans hown
    · rw [shown_bytesOf]
      exact .missingPath hprepared hstatus hsplit hwalked hmissing
    · rw [shown_bytesOf]
      exact .walk hprepared hstatus hsplit hwalked hfound hbarred

/-! ## The run -/

/-- It makes no difference to the chunks whether several workers share out the documents. -/
theorem outcomeOf_eq (s : Setup) (v : Invocation) (e : Engine) (documents : List Document) :
    outcomeOf s v e documents = e.chunkAll documents := by
  unfold outcomeOf
  split
  · refine e.chunkAllShared_eq documents _ fun i hi => ?_
    exact (s.schedule.perm documents.length).mem_iff.2 (List.mem_range.2 hi)
  · rfl

theorem on_writeChunks (s : Setup) (v : Invocation) (e : Engine) (documents : List Document) (earlier : List String) :
    (writeChunks s v e documents).on earlier = (.ok (), earlier ++
      if v.stats then [(statsReport documents.length (e.chunkAll documents)).pretty]
      else (e.chunkAll documents).chunks.map fun chunk => chunk.toJson.compact) := by
  simp only [writeChunks, outcomeOf_eq]
  by_cases hstats : v.stats = true
  · rw [if_pos hstats, if_pos hstats, Session.on_writeLine]
  · rw [if_neg hstats, if_neg hstats, Session.on_forM_writeLine]

/-- What is asked for is written in full, or a problem with the paths comes before all of it. -/
theorem on_answer (hprepared : Prepared s v active) :
    (∃ problem, Blocked s v problem ∧ ∀ earlier, (answer s v active).on earlier = (.error problem, earlier)) ∨
      ∃ lines, Writes s v lines ∧ ∀ earlier, (answer s v active).on earlier = (.ok (), earlier ++ lines) := by
  unfold answer
  by_cases hstatus : v.status = true
  · rw [if_pos hstatus]
    exact Or.inr ⟨_, .status hprepared hstatus, Session.on_writeLine _⟩
  rw [if_neg hstatus]
  rw [Bool.not_eq_true] at hstatus
  by_cases hnone : v.paths = []
  · rw [if_pos (List.isEmpty_iff.2 hnone)]
    exact Or.inl ⟨_, .noPaths hprepared hstatus hnone, Session.on_throw _⟩
  rw [if_neg (mt List.isEmpty_iff.1 hnone)]
  rcases collect_paths_cases hprepared hstatus with ⟨hcollect, hwalked⟩ | ⟨problem, hblocked, herror⟩
  · refine Or.inr ⟨_, ?_, fun earlier => (Session.on_bind_of_ok hcollect _ earlier).trans (on_writeChunks s v _ _ earlier)⟩
    cases hstats : v.stats with
    | true => exact .stats hprepared hstatus hnone hwalked hstats
    | false => exact .chunks hprepared hstatus hnone hwalked hstats
  · exact Or.inl ⟨problem, hblocked, Session.on_bind_of_error herror _⟩

/-- A run that is stopped has nothing written, and any other one has written its answer. -/
theorem on_run (s : Setup) (v : Invocation) :
    (∃ problem, Blocked s v problem ∧ ∀ earlier, (run s v).on earlier = (.error problem, earlier)) ∨
      ∃ lines, Writes s v lines ∧ ∀ earlier, (run s v).on earlier = (.ok (), earlier ++ lines) := by
  unfold run
  rcases configuration_cases s v with ⟨active, hconfigured, hconfig⟩ | ⟨problem, hblocked, hconfig⟩
  · rcases requireAll_cases s.grammars v.required with
      ⟨hrequire, hloaded⟩ | ⟨_, language, _, e, hlist, hbefore, hmissing, herror⟩
    · have hsteps : ∀ earlier, (Session.ofExcept (configuration s v) >>= fun active => do
          Session.ofExcept (requireAll s.grammars v.required)
          answer s v active).on earlier = (answer s v active).on earlier := fun earlier =>
        (Session.on_bind_of_ok hconfig _ earlier).trans (Session.on_bind_of_ok hrequire _ earlier)
      simp only [hsteps]
      exact on_answer ⟨hconfigured, hloaded⟩
    · refine Or.inl ⟨.grammar language e, .grammar hconfigured hlist hbefore hmissing, fun earlier => ?_⟩
      rw [Session.on_bind_of_ok hconfig, Session.on_bind_of_error herror]
  · exact Or.inl ⟨problem, hblocked, Session.on_bind_of_error hconfig _⟩

/-- **A configuration file that cannot be loaded** stops a run that asks for it, whatever else it asks for, and nothing
is written. -/
theorem run_of_unloaded {path : String} {e : ChunkError} (hasked : v.config = some path)
    (hload : Config.load s.files path = .error e) :
    Blocked s v (.config path e) ∧ ∀ earlier, (run s v).on earlier = (.error (.config path e), earlier) := by
  have hconfig : configuration s v = .error (.config path e) := by
    simp only [configuration, hasked, ActiveConfig.load, hload]
  exact ⟨.config hasked hload, fun earlier => by rw [run, Session.on_bind_of_error hconfig]⟩

/-- The lines of chunks are lines. -/
theorem Writes.oneLine {lines : List String} (h : Writes s v lines) (hstatus : v.status = false)
    (hstats : v.stats = false) : ∀ line ∈ lines, OneLine line := by
  cases h with
  | status _ h => rw [hstatus] at h; cases h
  | stats _ _ _ _ h => rw [hstats] at h; cases h
  | chunks =>
    intro line hline
    obtain ⟨chunk, -, rfl⟩ := List.mem_map.1 hline
    exact Json.oneLine_compact _

/-- **A failing run writes nothing.** Either something stops the run, and nothing has been written by then, or the run
writes its one report, or the chunks of its documents in their order, each on a line of its own. -/
theorem failing_runs_write_nothing (s : Setup) (v : Invocation) :
    (∃ problem, Blocked s v problem ∧ (∀ earlier, (run s v).on earlier = (.error problem, earlier)) ∧
        (Ending.ofRun ((run s v).on [])).output = "") ∨
      ∃ lines, Writes s v lines ∧ (∀ earlier, (run s v).on earlier = (.ok (), earlier ++ lines)) ∧
        (Ending.ofRun ((run s v).on [])).output = String.join (lines.map (· ++ "\n")) ∧
        (v.status = false → v.stats = false → ∀ line ∈ lines, OneLine line) := by
  rcases on_run s v with ⟨problem, hblocked, hrun⟩ | ⟨lines, hwrites, hrun⟩
  · refine Or.inl ⟨problem, hblocked, hrun, ?_⟩
    rw [hrun]
    rfl
  · refine Or.inr ⟨lines, hwrites, hrun, ?_, hwrites.oneLine⟩
    rw [hrun]
    rfl

/-- A directory with one file in it, and no grammars. -/
def oneFile : Setup :=
  { files := { root := .folder [(.of "a.txt", .text "a\n")] }
    grammars := {}
    parser := fun _ _ => ⟨.mk "" true ⟨0, 0⟩ {} [], false⟩ }

/-- The file has a chunk. Nothing is written of it if the path behind it leads nowhere, or if a configuration is asked for
that is not there. -/
theorem failing_runs_write_nothing_oneFile :
    (∃ line, Writes oneFile { paths := ["a.txt"] } [line] ∧ OneLine line) ∧
      (Blocked oneFile { paths := ["a.txt", "b.txt"] } (.missingPath "b.txt") ∧
        (Ending.ofRun ((run oneFile { paths := ["a.txt", "b.txt"] }).on [])).output = "") ∧
      Blocked oneFile { paths := ["a.txt"], config := some "c.toml" } (.config "c.toml" (.unreadable .notFound)) ∧
        (Ending.ofRun ((run oneFile { paths := ["a.txt"], config := some "c.toml" }).on [])).output = "" := by
  have hone : ((run oneFile { paths := ["a.txt"] }).on []).2.length = 1 := by decide +kernel
  have hmissing : Ending.ofRun ((run oneFile { paths := ["a.txt", "b.txt"] }).on []) = .failed (.missingPath "b.txt") := by
    decide +kernel
  have hconfig : Ending.ofRun ((run oneFile { paths := ["a.txt"], config := some "c.toml" }).on []) =
      .failed (.config "c.toml" (.unreadable .notFound)) := by decide +kernel
  refine ⟨?_, ?_, ?_⟩
  · rcases failing_runs_write_nothing oneFile { paths := ["a.txt"] } with
      ⟨problem, -, hrun, -⟩ | ⟨lines, hwrites, hrun, -, hlines⟩
    · rw [hrun] at hone
      cases hone
    · rw [hrun, List.nil_append] at hone
      obtain ⟨line, rfl⟩ := List.length_eq_one_iff.1 hone
      exact ⟨line, hwrites, hlines rfl rfl line List.mem_cons_self⟩
  · rcases failing_runs_write_nothing oneFile { paths := ["a.txt", "b.txt"] } with
      ⟨problem, hblocked, hrun, hout⟩ | ⟨lines, -, hrun, -⟩ <;> rw [hrun] at hmissing <;> cases hmissing
    exact ⟨hblocked, hout⟩
  · rcases failing_runs_write_nothing oneFile { paths := ["a.txt"], config := some "c.toml" } with
      ⟨problem, hblocked, hrun, hout⟩ | ⟨lines, -, hrun, -⟩ <;> rw [hrun] at hconfig <;> cases hconfig
    exact ⟨hblocked, hout⟩

end Command
end Chunkwise
