import Chunkwise.Named

/-!
# What a look-up by name finds

Putting entries in their places leaves the last one of each name (`find?_insertAll`), in the order of the names
(`Ordered`, `ordered_insertAll`). Entries that are in order are known by what is found in them (`Ordered.ext`), and
being in order, each name has one entry: a look-up from behind finds the same (`Ordered.find?_reverse`), and if they are
renamed the last one that has a name is the greatest (`Ordered.find?_reverse_rename`).
-/

namespace Chunkwise
namespace Named

variable {α : Type} {name : String} {value : α} {map entries : Named α}

/-! ## Look-ups -/

theorem find?_append (name : String) (a b : Named α) : find? name (a ++ b) = (find? name a).or (find? name b) := by
  induction a with
  | nil => rfl
  | cons e a ih =>
    rw [List.cons_append, find?, find?, ih]
    split <;> rfl

theorem mem_of_find? (h : find? name map = some value) : (name, value) ∈ map := by
  induction map with
  | nil => cases h
  | cons e map ih =>
    obtain ⟨k, v⟩ := e
    rw [find?] at h
    split at h
    · rename_i hk
      cases h
      rw [hk]
      exact List.mem_cons_self
    · exact List.mem_cons_of_mem _ (ih h)

/-- Where every name stands once, each entry is found. -/
theorem find?_of_nodup (h : (map.map (·.1)).Nodup) (hmem : (name, value) ∈ map) : find? name map = some value := by
  induction map with
  | nil => cases hmem
  | cons e map ih =>
    obtain ⟨k, v⟩ := e
    rw [List.map_cons, List.nodup_cons] at h
    rw [find?]
    rcases List.mem_cons.1 hmem with heq | hmem
    · cases heq
      exact if_pos rfl
    · have hne : ¬ k = name := fun heq => h.1 (List.mem_map.2 ⟨_, hmem, heq.symm⟩)
      rw [if_neg hne, ih h.2 hmem]

theorem find?_eq_none (h : ∀ e ∈ map, e.1 ≠ name) : find? name map = none := by
  cases hfind : find? name map with
  | none => rfl
  | some value => exact absurd rfl (h _ (mem_of_find? hfind))

/-- Leaving out entries by name leaves the other look-ups. -/
theorem find?_filter (keep : String → Bool) (name : String) (map : Named α) :
    find? name (map.filter fun e => keep e.1) = if keep name then find? name map else none := by
  induction map with
  | nil => simp [find?]
  | cons e map ih =>
    obtain ⟨k, v⟩ := e
    by_cases hk : k = name
    · subst hk
      by_cases hkeep : keep k
      · simp [hkeep, find?]
      · simp [hkeep, ih]
    · by_cases hkeep : keep k
      · simp [hkeep, find?, hk, ih]
      · simp [hkeep, find?, hk, ih]

theorem find?_map (f : String → α) (name : String) (names : List String) :
    find? name (names.map fun n => (n, f n)) = if name ∈ names then some (f name) else none := by
  induction names with
  | nil => rfl
  | cons n names ih =>
    rw [List.map_cons, find?, ih]
    by_cases hn : n = name
    · subst hn
      simp
    · simp [hn, Ne.symm hn]

/-- Of the entries that are put in, the last one of a name is found. -/
theorem find?_insertAll (name : String) (entries : List (String × α)) (map : Named α) :
    find? name (insertAll entries map) = (find? name entries.reverse).or (find? name map) := by
  induction entries generalizing map with
  | nil => rfl
  | cons e entries ih =>
    have hstep : find? name (insert e.1 e.2 map) = (find? name [e]).or (find? name map) := by
      by_cases he : name = e.1
      · rw [he, find?_insert, find?, if_pos rfl]
        rfl
      · rw [find?_insert_ne he, find?, if_neg fun h => he h.symm]
        rfl
    have hrest := ih (insert e.1 e.2 map)
    rw [insertAll] at hrest ⊢
    rw [List.foldl_cons, hrest, hstep, List.reverse_cons, find?_append, Option.or_assoc]

theorem find?_ofList (name : String) (entries : Named α) : find? name (ofList entries) = find? name entries.reverse := by
  rw [ofList, find?_insertAll, find?, Option.or_none]

theorem find?_insertAll_map (f : String → α) (name : String) (names : List String) (map : Named α) :
    find? name (insertAll (names.map fun n => (n, f n)) map) =
      if name ∈ names then some (f name) else find? name map := by
  rw [find?_insertAll, ← List.map_reverse, find?_map]
  by_cases hname : name ∈ names
  · rw [if_pos (List.mem_reverse.2 hname), if_pos hname]
    rfl
  · rw [if_neg (fun h => hname (List.mem_reverse.1 h)), if_neg hname]
    rfl

/-- The names of entries put over others are the names of both. -/
theorem mem_names_insertAll {entries : List (String × α)} :
    name ∈ names (insertAll entries map) ↔ name ∈ names entries ∨ name ∈ names map := by
  induction entries generalizing map with
  | nil => simp [insertAll, names]
  | cons e entries ih =>
    have hrest : name ∈ names (insertAll entries (insert e.1 e.2 map)) ↔ _ := ih
    rw [insertAll] at hrest ⊢
    rw [List.foldl_cons, hrest, names_insert, ← or_assoc]
    refine or_congr_left ?_
    rw [names, names, List.map_cons, List.mem_cons, or_comm]

/-! ## Order -/

/-- Whether entries are in the order of their names, each name once. -/
def Ordered (map : Named α) : Prop := map.Pairwise fun a b => a.1 < b.1

instance (map : Named α) : Decidable (Ordered map) := inferInstanceAs (Decidable (map.Pairwise fun a b => a.1 < b.1))

theorem ordered_insert (h : Ordered map) (name : String) (value : α) : Ordered (insert name value map) := by
  induction map with
  | nil => exact List.pairwise_singleton _ _
  | cons e map ih =>
    obtain ⟨k, v⟩ := e
    obtain ⟨hk, hmap⟩ := List.pairwise_cons.1 h
    rw [insert]
    split
    · rename_i hname
      subst hname
      exact List.pairwise_cons.2 ⟨hk, hmap⟩
    · rename_i hname
      split
      · rename_i hlt
        refine List.pairwise_cons.2 ⟨fun e he => ?_, h⟩
        rcases List.mem_cons.1 he with rfl | he
        · exact hlt
        · exact String.lt_trans hlt (hk e he)
      · rename_i hnlt
        have hkname : k < name := by
          rcases Std.lt_trichotomy name k with hlt | heq | hlt
          · exact absurd hlt hnlt
          · exact absurd heq hname
          · exact hlt
        refine List.pairwise_cons.2 ⟨fun e he => ?_, ih hmap⟩
        rcases names_insert.1 (List.mem_map_of_mem he) with heq | hmem
        · rw [heq]
          exact hkname
        · obtain ⟨f, hf, hfe⟩ := List.mem_map.1 hmem
          rw [← hfe]
          exact hk f hf

theorem ordered_insertAll (h : Ordered map) (entries : List (String × α)) : Ordered (insertAll entries map) := by
  induction entries generalizing map with
  | nil => exact h
  | cons e entries ih => exact ih (ordered_insert h e.1 e.2)

theorem ordered_ofList (entries : List (String × α)) : Ordered (ofList entries) :=
  ordered_insertAll List.Pairwise.nil entries

theorem Ordered.nodup_names (h : Ordered map) : (map.map (·.1)).Nodup := by
  refine List.pairwise_map.2 (h.imp ?_)
  intro x y hlt heq
  exact String.lt_irrefl y.1 (heq ▸ hlt)

theorem Ordered.find?_of_mem (h : Ordered map) (hmem : (name, value) ∈ map) : find? name map = some value :=
  find?_of_nodup h.nodup_names hmem

/-- Entries in order are found from behind as well. -/
theorem Ordered.find?_reverse (h : Ordered map) (name : String) : find? name map.reverse = find? name map := by
  cases hfind : find? name map.reverse with
  | none =>
    cases hmap : find? name map with
    | none => rfl
    | some value =>
      have hmem : (name, value) ∈ map.reverse := List.mem_reverse.2 (mem_of_find? hmap)
      obtain ⟨before, after, hsplit⟩ := List.append_of_mem hmem
      rw [hsplit, find?_append] at hfind
      simp [find?] at hfind
  | some value => exact (h.find?_of_mem (List.mem_reverse.1 (mem_of_find? hfind))).symm

/-- The entry with the greatest name, of those that have a name when they are renamed. -/
def GreatestAs (rename : String → String) (name : String) (entries : Named α) (key : String) (value : α) : Prop :=
  (key, value) ∈ entries ∧ rename key = name ∧ ∀ e ∈ entries, rename e.1 = name → e.1 = key ∨ e.1 < key

/-- From behind, the entry with the greatest name is found, of those that are in order and renamed. -/
theorem Ordered.find?_reverse_rename (h : Ordered entries) (rename : String → String) (name : String) :
    (∃ key value, GreatestAs rename name entries key value ∧
        find? name (entries.map fun e => (rename e.1, e.2)).reverse = some value) ∨
      ((∀ e ∈ entries, rename e.1 ≠ name) ∧ find? name (entries.map fun e => (rename e.1, e.2)).reverse = none) := by
  induction entries with
  | nil =>
    refine Or.inr ⟨fun e he => ?_, rfl⟩
    cases he
  | cons e entries ih =>
    obtain ⟨hfirst, hentries⟩ := List.pairwise_cons.1 h
    rw [List.map_cons, List.reverse_cons, find?_append]
    rcases ih hentries with ⟨key, value, ⟨hmem, hkey, hgreatest⟩, hfind⟩ | ⟨hnone, hfind⟩
    · refine Or.inl ⟨key, value, ⟨List.mem_cons_of_mem _ hmem, hkey, ?_⟩, by rw [hfind, Option.some_or]⟩
      exact List.forall_mem_cons.2 ⟨fun _ => Or.inr (hfirst _ hmem), hgreatest⟩
    · rw [hfind, Option.none_or, find?]
      by_cases he : rename e.1 = name
      · refine Or.inl ⟨e.1, e.2, ⟨List.mem_cons_self, he, ?_⟩, if_pos he⟩
        exact List.forall_mem_cons.2 ⟨fun _ => Or.inl rfl, fun f hf hname => absurd hname (hnone f hf)⟩
      · exact Or.inr ⟨List.forall_mem_cons.2 ⟨he, hnone⟩, if_neg he⟩

theorem Ordered.nodup (h : Ordered map) : map.Nodup := by
  apply List.Pairwise.imp _ h
  intro x y hlt heq
  exact String.lt_irrefl y.1 (heq ▸ hlt)

theorem Ordered.eq_of_mem_iff {a b : Named α} (ha : Ordered a) (hb : Ordered b) (h : ∀ e, e ∈ a ↔ e ∈ b) : a = b := by
  have hperm : a.Perm b := (List.perm_ext_iff_of_nodup ha.nodup hb.nodup).2 h
  exact hperm.eq_of_pairwise (fun x y _ _ hxy hyx => absurd hyx (String.lt_asymm hxy)) ha hb

/-- **Entries in order are known by what is found in them.** -/
theorem Ordered.ext {a b : Named α} (ha : Ordered a) (hb : Ordered b) (h : ∀ name, find? name a = find? name b) :
    a = b := by
  refine ha.eq_of_mem_iff hb ?_
  rintro ⟨name, value⟩
  constructor
  · intro he
    exact mem_of_find? ((h name).symm.trans (ha.find?_of_mem he))
  · intro he
    exact mem_of_find? ((h name).trans (hb.find?_of_mem he))

end Named
end Chunkwise
