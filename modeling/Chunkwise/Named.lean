/-!
# Entries by name

Finite maps from names, as lists in the order of the names. `insert` puts an entry in its place, over an earlier
one of that name: `find?_insert` and `find?_insert_ne` say what a look-up finds afterwards, and `names_insert` which
names there are.
-/

namespace Chunkwise

/-- Entries with names. -/
abbrev Named (α : Type) := List (String × α)

namespace Named

variable {α : Type}

/-- Puts an entry in its place, over an earlier one of that name. -/
def insert (name : String) (value : α) : Named α → Named α
  | [] => [(name, value)]
  | (k, v) :: rest =>
    if name = k then (name, value) :: rest
    else if name < k then (name, value) :: (k, v) :: rest
    else (k, v) :: insert name value rest

/-- The value of a name. -/
def find? (name : String) : Named α → Option α
  | [] => none
  | (k, v) :: rest => if k = name then some v else find? name rest

/-- Puts entries in their places one after another. -/
def insertAll (entries : List (String × α)) (map : Named α) : Named α :=
  entries.foldl (fun map e => insert e.1 e.2 map) map

/-- The entries of a list in the order of their names, the last of each name. -/
def ofList (entries : List (String × α)) : Named α := insertAll entries []

/-- The names that have a value. -/
def names (map : Named α) : List String := map.map (·.1)

/-- An entry that was put in is found. -/
theorem find?_insert (name : String) (value : α) (map : Named α) : find? name (insert name value map) = some value := by
  induction map with
  | nil => simp [insert, find?]
  | cons e rest ih =>
    obtain ⟨k, v⟩ := e
    rw [insert]
    split
    · simp [find?]
    · split
      · simp [find?]
      · rename_i h _
        rw [find?, if_neg (fun e => h e.symm), ih]

/-- Putting in an entry leaves those of other names. -/
theorem find?_insert_ne {name other : String} (h : other ≠ name) (value : α) (map : Named α) :
    find? other (insert name value map) = find? other map := by
  induction map with
  | nil => simp [insert, find?, Ne.symm h]
  | cons e rest ih =>
    obtain ⟨k, v⟩ := e
    rw [insert]
    split
    · rename_i hk
      subst hk
      simp [find?, Ne.symm h]
    · split
      · simp [find?, Ne.symm h]
      · simp only [find?, ih]

/-- Putting in an entry adds its name and no other. -/
theorem names_insert {name other : String} {value : α} {map : Named α} :
    other ∈ names (insert name value map) ↔ other = name ∨ other ∈ names map := by
  induction map with
  | nil => simp [insert, names]
  | cons e rest ih =>
    obtain ⟨k, v⟩ := e
    rw [insert]
    split
    · rename_i hk
      subst hk
      simp [names]
    · split
      · simp [names]
      · simp only [names, List.map_cons, List.mem_cons] at ih ⊢
        rw [ih]
        constructor
        · rintro (h | h | h)
          · exact Or.inr (Or.inl h)
          · exact Or.inl h
          · exact Or.inr (Or.inr h)
        · rintro (h | h | h)
          · exact Or.inr (Or.inl h)
          · exact Or.inl h
          · exact Or.inr (Or.inr h)

end Named
end Chunkwise
