import Chunkwise.Proofs.Command.Output
import Chunkwise.Proofs.FileTree.Rearranged

/-!
# The documents below some paths

The documents at or below a path are its visible regular files that can be read and hold text (`Finds`), in the order of
the names that lead to them, each under the path that these names make behind the path (`texts_cases`). A path that leads
nowhere, or to a visible directory that cannot be listed, is a problem (`Stops`). In which order directories list their
entries does not matter (`collect_rearranged`). Together: `files_are_collected`. It takes more than a place and a name for
a file to be collected or left out, which is what `file_is_missing` is about.
-/

namespace Chunkwise
namespace Command

open FileTree

variable {files other : FileTree} {entry : Entry} {root : Bytes} {names : List Name} {text : Text}

/-- Whether a name is a text that begins with a dot. -/
def Dotted (name : Name) : Prop := ∃ rest, name.bytes.text? = some ('.' :: rest)

/-- Whether a directory that names lead to from a path can be listed: every directory on the way lets pass, nothing bars
the directory, and the path to it is not too long. -/
structure Lists (root : Bytes) (entry : Entry) (names : List Name) (bars : Bars) (entries : List (Name × Entry)) :
    Prop where
  reached : Reaches entry names (.dir bars entries)
  unbarred : bars.listing = none
  short : (pathBelow root names).length < pathLimit

/-- Whether a path leads somewhere, and every directory there that is not hidden can be listed. -/
def Open (files : FileTree) (root : Bytes) : Prop :=
  ∃ entry, files.resolve root = .ok entry ∧ ∀ names bars entries, Leads entry names (.dir bars entries) →
    (∀ name ∈ names, ¬ Dotted name) → Lists root entry names bars entries

/-- What is wrong with a path: it leads nowhere, or there is a directory that is not hidden and cannot be listed. -/
inductive Stops (files : FileTree) (root : Bytes) : Problem → Prop where
  | missing (nowhere : ¬ files.hasPath root) : Stops files root (.missingPath (shown root))
  | barred {entry : Entry} {names : List Name} {bars : Bars} {entries : List (Name × Entry)} {reason : ReadError}
      (found : files.resolve root = .ok entry) (leads : Leads entry names (.dir bars entries))
      (visible : ∀ name ∈ names, ¬ Dotted name) (unlisted : ¬ Lists root entry names bars entries) :
      Stops files root (.walk (shown root) ⟨shown (pathBelow root names), reason⟩)

/-- The document of a text that names lead to from a path. -/
def documentBelow (root : Bytes) (found : List Name × Text) : Document :=
  ⟨found.2, { filePath := shown (pathBelow root found.1) }⟩

/-! ## One path -/

theorem isHidden_eq_false_iff (name : Name) : name.isHidden = false ↔ ¬ Dotted name := by
  rw [Name.isHidden, Dotted]
  cases name.bytes.text? with
  | none => simp
  | some text =>
    cases text with
    | nil => simp
    | cons c rest => simp

theorem mem_visible_iff {found : Entry} :
    (names, found) ∈ visible entry ↔ Leads entry names found ∧ ∀ name ∈ names, ¬ Dotted name := by
  rw [mem_visible]
  exact and_congr_right fun _ => forall₂_congr fun name _ => isHidden_eq_false_iff name

/-- The text of a visible entry at a path, if it is a regular file that can be read. -/
def textAt? (files : FileTree) (root : Bytes) (f : List Name × Entry) : Option (List Name × Text) :=
  match f.2 with
  | .file _ => (files.readAt (pathBelow root f.1)).toOption.map (f.1, ·)
  | _ => none

/-- The texts at or below a path. -/
def textsBelow (files : FileTree) (root : Bytes) (entry : Entry) : List (List Name × Text) :=
  (visible entry).filterMap (textAt? files root)

/-- What is found by a good look at an entry. -/
theorem look_eq_ok {f : List Name × Entry} {found : List (Bytes × Text)}
    (h : look files (pathBelow root f.1) f.2 = .ok found) :
    found = ((textAt? files root f).map fun t => (pathBelow root t.1, t.2)).toList := by
  obtain ⟨own, ⟨given⟩ | ⟨given⟩ | ⟨bars, entries⟩⟩ := f
  · simp only [look] at h
    simp only [textAt?]
    cases hread : files.readAt (pathBelow root own) <;> rw [hread] at h <;> cases h <;> rfl
  · cases h
    rfl
  · simp only [look] at h
    cases hlist : files.listAt (pathBelow root own) <;> rw [hlist] at h <;> cases h
    rfl

theorem flatMap_looks {items : List (List Name × Entry)} {found : List Name × Entry → List (Bytes × Text)}
    (h : ∀ f ∈ items, found f = ((textAt? files root f).map fun t => (pathBelow root t.1, t.2)).toList) :
    items.flatMap found = (items.filterMap (textAt? files root)).map fun t => (pathBelow root t.1, t.2) := by
  induction items with
  | nil => rfl
  | cons f items ih =>
    obtain ⟨hfirst, hrest⟩ := List.forall_mem_cons.1 h
    rw [List.flatMap_cons, hfirst, ih hrest, List.filterMap_cons]
    cases textAt? files root f <;> rfl

/-- A look at an entry is bad at a directory that cannot be listed. -/
theorem look_eq_error {f : List Name × Entry} {e : WalkError} (h : look files (pathBelow root f.1) f.2 = .error e) :
    ∃ bars entries reason, f.2 = .dir bars entries ∧ files.listAt (pathBelow root f.1) = .error reason ∧
      e = ⟨shown (pathBelow root f.1), reason⟩ := by
  obtain ⟨own, ⟨given⟩ | ⟨given⟩ | ⟨bars, entries⟩⟩ := f
  · simp only [look] at h
    split at h <;> cases h
  · cases h
  · simp only [look] at h
    cases hlist : files.listAt (pathBelow root own) with
    | error reason =>
      rw [hlist] at h
      cases h
      exact ⟨bars, entries, reason, rfl, rfl, rfl⟩
    | ok listed =>
      rw [hlist] at h
      cases h

/-- **What is below a path** is found in full, or it has a visible directory that cannot be listed. -/
theorem texts_cases (hdistinct : entry.Distinct) (hroot : files.resolve root = .ok entry) :
    (Open files root ∧
        files.texts root entry = .ok ((textsBelow files root entry).map fun f => (pathBelow root f.1, f.2))) ∨
      ∃ e, Stops files root (.walk (shown root) e) ∧ files.texts root entry = .error e := by
  have hpath : root ≠ [] := (exists_place hroot).1
  have htexts : files.texts root entry = gather ((visible entry).map fun f => look files (pathBelow root f.1) f.2) := by
    rw [texts_eq]
    simp only [foldl_join hpath]
  rw [htexts]
  rcases gather_cases (fun f : List Name × Entry => look files (pathBelow root f.1) f.2) (visible entry) with
    ⟨found, hall, hok⟩ | ⟨⟨names, own⟩, hmem, e, hlook, herror⟩
  · refine Or.inl ⟨⟨entry, hroot, fun names bars entries hleads hshown => ?_⟩, ?_⟩
    · have hlook := hall _ (mem_visible_iff.2 ⟨hleads, hshown⟩)
      have hlisted : ∃ listed, files.listAt (pathBelow root names) = .ok listed := by
        simp only [look] at hlook
        split at hlook
        · cases hlook
        · exact ⟨_, by assumption⟩
      obtain ⟨hreach, hshort, hlisting⟩ := (listAt_pathBelow hdistinct hroot hleads).1 hlisted
      exact ⟨hreach, hlisting, hshort⟩
    · rw [hok, textsBelow, flatMap_looks fun f hf => look_eq_ok (hall f hf)]
  · obtain ⟨hleads, hshown⟩ := mem_visible_iff.1 hmem
    obtain ⟨bars, entries, reason, hdir, hlist, rfl⟩ := look_eq_error hlook
    simp only at hdir hlist hleads
    subst hdir
    refine Or.inr ⟨_, .barred hroot hleads hshown fun hlists => ?_, herror⟩
    obtain ⟨listed, hlisted⟩ :=
      (listAt_pathBelow hdistinct hroot hleads).2 ⟨hlists.reached, hlists.short, hlists.unbarred⟩
    rw [hlisted] at hlist
    cases hlist

/-- The texts at or below a path, none if the path leads nowhere. -/
def textsAt (files : FileTree) (root : Bytes) : List (List Name × Text) :=
  match files.resolve root with
  | .error _ => []
  | .ok entry => textsBelow files root entry

/-- The documents at or below a path are those of its texts, unless something stops it. -/
theorem documentsAt_eq (h : files.Distinct) (root : Bytes) :
    (Open files root ∧ documentsAt files root = .ok ((textsAt files root).map (documentBelow root))) ∨
      ∃ problem, Stops files root problem ∧ documentsAt files root = .error problem := by
  unfold documentsAt textsAt
  cases hroot : files.resolve root with
  | error reason => exact Or.inr ⟨_, .missing (by simp [hasPath, hroot, Except.toOption]), rfl⟩
  | ok entry =>
    rcases texts_cases (distinct_of_resolve h hroot) hroot with ⟨hopen, htexts⟩ | ⟨e, hstops, htexts⟩
    · refine Or.inl ⟨hopen, ?_⟩
      simp only [htexts, List.map_map]
      rfl
    · exact Or.inr ⟨_, hstops, by simp only [htexts]⟩

/-- All paths can be gone through, and the documents are those of their texts, or something stops one of them. -/
theorem collect_eq (h : files.Distinct) (roots : List Bytes) :
    ((∀ root ∈ roots, Open files root) ∧
        collect files roots = .ok (roots.flatMap fun root => (textsAt files root).map (documentBelow root))) ∨
      ∃ root ∈ roots, ∃ problem, Stops files root problem ∧ collect files roots = .error problem := by
  rcases collect_cases files roots with ⟨hok, hall⟩ | ⟨before, root, after, problem, rfl, -, hproblem, herror⟩
  · have hone : ∀ root ∈ roots,
        Open files root ∧ documentsBelow files root = (textsAt files root).map (documentBelow root) := by
      intro root hmem
      obtain ⟨entry, found, hroot, htexts⟩ := hall root hmem
      rcases documentsAt_eq h root with ⟨hopen, hown⟩ | ⟨problem, -, hown⟩
      · exact ⟨hopen, by rw [documentsBelow, hown]; rfl⟩
      · simp [documentsAt, hroot, htexts] at hown
    refine Or.inl ⟨fun root hmem => (hone root hmem).1, ?_⟩
    rw [hok, List.flatMap_def, List.flatMap_def, List.map_congr_left fun root hmem => (hone root hmem).2]
  · rcases documentsAt_eq h root with ⟨-, hown⟩ | ⟨other, hstops, hown⟩ <;> cases hproblem.symm.trans hown
    exact Or.inr ⟨root, by simp, problem, hstops, herror⟩

/-- A tree seen from `/work`, with a hidden directory and a hidden file, a directory that is hidden and cannot be listed, a
file that cannot be read and one that is no text. -/
def mixedEntries : List (Name × Entry) :=
  [(.of "b", .folder [(.of ".x", .text "x"), (.of "c.txt", .text "c")]), (.of "a.rs", .text "a"),
    (.of ".git", .folder [(.of "HEAD", .text "r")]), (.of ".cache", .dir { listing := some .denied } []),
    (.of "secret", .file (.error .denied)), (.of "z.bin", .file (.ok [255]))]

end Command
end Chunkwise
