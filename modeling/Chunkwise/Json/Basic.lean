/-!
# JSON values

A JSON value. Whole numbers and other numbers are told apart; the fields of an object keep the order they were
written in. `setField` writes a field over an earlier one of the same name: `field?_setField` and
`field?_setField_ne` say which value a look-up finds afterwards.
-/

namespace Chunkwise

/-- A JSON value. -/
inductive Json where
  | null
  | bool (b : Bool)
  | int (n : Int)
  | float (x : Float)
  | str (s : String)
  | arr (items : List Json)
  | obj (fields : List (String × Json))

namespace Json

/-- The value of a field: the last one, should the name stand more than once. -/
def field? : List (String × Json) → String → Option Json
  | [], _ => none
  | (k, v) :: rest, name => (field? rest name).or (if k = name then some v else none)

/-- Writes a field over the earlier ones of that name, or behind the others. -/
def setField : List (String × Json) → String → Json → List (String × Json)
  | [], name, value => [(name, value)]
  | (k, v) :: rest, name, value =>
    if k = name then (k, value) :: rest.filter (·.1 != name) else (k, v) :: setField rest name value

/-- An object with the given fields, later ones over earlier ones. -/
def ofFields (fields : List (String × Json)) : List (String × Json) :=
  fields.foldl (fun done f => setField done f.1 f.2) []

/-- A number of things. -/
def count (n : Nat) : Json := int n

/-- A value that may be absent, as `null`. -/
def ofOption (encode : α → Json) : Option α → Json
  | none => null
  | some a => encode a

/-- A list of values. -/
def ofList (encode : α → Json) (items : List α) : Json := arr (items.map encode)

/-- A list of strings. -/
def strings (items : List String) : Json := ofList str items

theorem field?_filter_ne {fields : List (String × Json)} {name : String} :
    field? (fields.filter (·.1 != name)) name = none := by
  induction fields with
  | nil => rfl
  | cons f rest ih =>
    obtain ⟨k, v⟩ := f
    by_cases h : k = name
    · simpa [h] using ih
    · simp [h, field?, ih]

/-- A field that was written is found. -/
theorem field?_setField (fields : List (String × Json)) (name : String) (value : Json) :
    field? (setField fields name value) name = some value := by
  induction fields with
  | nil => simp [setField, field?]
  | cons f rest ih =>
    obtain ⟨k, v⟩ := f
    rw [setField]
    split
    · rename_i h; simp [field?, h, field?_filter_ne]
    · simp [field?, ih]

theorem field?_filter_of_ne {fields : List (String × Json)} {name other : String} (h : other ≠ name) :
    field? (fields.filter (·.1 != name)) other = field? fields other := by
  induction fields with
  | nil => rfl
  | cons f rest ih =>
    obtain ⟨k, v⟩ := f
    by_cases hk : k = name
    · have : ¬ name = other := fun e => h e.symm
      simp [hk, field?, ih, this]
    · simp [hk, field?, ih]

/-- Writing a field leaves the others. -/
theorem field?_setField_ne {fields : List (String × Json)} {name other : String} {value : Json} (h : other ≠ name) :
    field? (setField fields name value) other = field? fields other := by
  induction fields with
  | nil => simp [setField, field?, Ne.symm h]
  | cons f rest ih =>
    obtain ⟨k, v⟩ := f
    rw [setField]
    split
    · rename_i hk
      have : ¬ name = other := fun e => h e.symm
      simp [field?, hk, this, field?_filter_of_ne h]
    · simp [field?, ih]

end Json
end Chunkwise
