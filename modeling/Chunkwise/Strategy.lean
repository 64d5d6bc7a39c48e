import Chunkwise.Setting.Basic

/-!
# Strategies

How documents of one extension are cut: the sizes of chunks and what is kept together. Sizes count characters.

* `Strategy.validate_eq_ok`: which strategies are valid.
* `FallbackSizes.validate_eq_ok`: which fallback sizes are.
-/

namespace Chunkwise

/-- The policy for documents of one extension. -/
structure Strategy where
  maxChunkSize : Nat := 1500
  chunkOverlap : Nat := 150
  /-- Never split a function or method. -/
  preserveMethods : Bool := true
  /-- Never split a unit that holds a container. -/
  preserveClasses : Bool := true
  /-- Keep the leading imports with the first definition. -/
  includeImports : Bool := true
  /-- Keep comments with the definition they stand above. -/
  includeDocstrings : Bool := true
  /-- Prefer the lines at the indentation of a body when it is split. -/
  respectIndentation : Bool := true
deriving DecidableEq, Repr

/-- The sizes used where no strategy applies. -/
structure FallbackSizes where
  chunkSize : Nat := 1000
  chunkOverlap : Nat := 200
deriving DecidableEq, Repr

namespace Strategy

/-- The least chunk size that is valid. -/
def minSize : Nat := 100

/-- The greatest chunk size that is valid. -/
def maxSize : Nat := 8000

/-- The greatest overlap that is valid. -/
def maxOverlap : Nat := 1000

/-- The policy for program text of some sizes. -/
def code (size overlap : Nat) : Strategy := { maxChunkSize := size, chunkOverlap := overlap }

/-- The policy for marked-up prose of some sizes. -/
def markup (size overlap : Nat) : Strategy :=
  { maxChunkSize := size, chunkOverlap := overlap, preserveMethods := false, preserveClasses := false,
    includeImports := false, respectIndentation := false }

/-- Accepts a strategy, or says what is wrong with it. -/
def validate (s : Strategy) : Except String Unit :=
  if ¬ (minSize ≤ s.maxChunkSize ∧ s.maxChunkSize ≤ maxSize) then
    .error s!"max_chunk_size ({s.maxChunkSize}) must be between {minSize} and {maxSize}"
  else if maxOverlap < s.chunkOverlap then
    .error s!"chunk_overlap ({s.chunkOverlap}) cannot exceed {maxOverlap}"
  else if s.maxChunkSize ≤ s.chunkOverlap then
    .error s!"chunk_overlap ({s.chunkOverlap}) must be smaller than max_chunk_size ({s.maxChunkSize})"
  else .ok ()

/-- The names of the fields, in order. -/
def fieldNames : List String :=
  ["max_chunk_size", "chunk_overlap", "preserve_methods", "preserve_classes", "include_imports",
   "include_docstrings", "respect_indentation"]

/-- The strategy of a setting; missing fields take their defaults. -/
def ofSetting? (setting : Setting) : Option Strategy := do
  let field ← setting.record? fieldNames
  let count := Setting.field? Setting.count?
  let flag (name : String) := Setting.field? Setting.bool? true (field name)
  some
    { maxChunkSize := ← count 1500 (field "max_chunk_size")
      chunkOverlap := ← count 150 (field "chunk_overlap")
      preserveMethods := ← flag "preserve_methods"
      preserveClasses := ← flag "preserve_classes"
      includeImports := ← flag "include_imports"
      includeDocstrings := ← flag "include_docstrings"
      respectIndentation := ← flag "respect_indentation" }

/-- A strategy as an object, its fields by name. -/
def toJson (s : Strategy) : Json :=
  .obj
    [("chunk_overlap", .count s.chunkOverlap),
     ("include_docstrings", .bool s.includeDocstrings),
     ("include_imports", .bool s.includeImports),
     ("max_chunk_size", .count s.maxChunkSize),
     ("preserve_classes", .bool s.preserveClasses),
     ("preserve_methods", .bool s.preserveMethods),
     ("respect_indentation", .bool s.respectIndentation)]

/-- A strategy is valid if its size and its overlap are within their limits and the overlap is the smaller one. -/
theorem validate_eq_ok {s : Strategy} :
    s.validate = .ok () ↔
      minSize ≤ s.maxChunkSize ∧ s.maxChunkSize ≤ maxSize ∧ s.chunkOverlap ≤ maxOverlap ∧
        s.chunkOverlap < s.maxChunkSize := by
  simp only [validate]
  split
  · rename_i h; simp only [reduceCtorEq, false_iff]; exact fun h' => h ⟨h'.1, h'.2.1⟩
  · rename_i h
    split
    · simp only [reduceCtorEq, false_iff]; omega
    · split
      · simp only [reduceCtorEq, false_iff]; omega
      · simp only [true_iff]; omega

end Strategy

namespace FallbackSizes

/-- Accepts fallback sizes, or says what is wrong with them. -/
def validate (f : FallbackSizes) : Except String Unit :=
  if f.chunkSize = 0 then .error "fallback chunk_size must be > 0"
  else if f.chunkSize ≤ f.chunkOverlap then
    .error s!"fallback chunk_overlap ({f.chunkOverlap}) must be smaller than chunk_size ({f.chunkSize})"
  else .ok ()

/-- The fallback sizes as a strategy that keeps nothing together. -/
def toStrategy (f : FallbackSizes) : Strategy :=
  { maxChunkSize := f.chunkSize, chunkOverlap := f.chunkOverlap, preserveMethods := false, preserveClasses := false,
    includeImports := false, includeDocstrings := false, respectIndentation := false }

/-- The names of the fields, in order. -/
def fieldNames : List String := ["chunk_size", "chunk_overlap"]

/-- The sizes of a setting; missing fields take their defaults. -/
def ofSetting? (setting : Setting) : Option FallbackSizes := do
  let field ← setting.record? fieldNames
  some
    { chunkSize := ← Setting.field? Setting.count? 1000 (field "chunk_size")
      chunkOverlap := ← Setting.field? Setting.count? 200 (field "chunk_overlap") }

/-- Fallback sizes as an object, its fields by name. -/
def toJson (f : FallbackSizes) : Json :=
  .obj [("chunk_overlap", .count f.chunkOverlap), ("chunk_size", .count f.chunkSize)]

/-- Fallback sizes are valid if the overlap is smaller than the size. -/
theorem validate_eq_ok {f : FallbackSizes} : f.validate = .ok () ↔ f.chunkOverlap < f.chunkSize := by
  simp only [validate]
  split
  · simp only [reduceCtorEq, false_iff]; omega
  · split
    · simp only [reduceCtorEq, false_iff]; omega
    · simp only [true_iff]; omega

end FallbackSizes
end Chunkwise
