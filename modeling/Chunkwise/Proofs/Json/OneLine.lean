import Chunkwise.Json.Printer

/-!
# Compact JSON is one line

Numbers are written in digits, signs and points (`Decimal.oneLine_dataText`), and strings with their newlines escaped
(`Json.oneLine_quoted`). By induction over the value there is no newline in what a value is written as without blanks
(`Json.oneLine_compact`).
-/

namespace Chunkwise

/-- Whether a string has no newline in it. -/
def OneLine (s : String) : Prop := '\n' ∉ s.toList

instance (s : String) : Decidable (OneLine s) := inferInstanceAs (Decidable ('\n' ∉ s.toList))

section Strings

variable {a b : String} {cs : List Char} {items : List String}

theorem OneLine.append (ha : OneLine a) (hb : OneLine b) : OneLine (a ++ b) := by
  unfold OneLine at *
  rw [String.toList_append, List.mem_append, not_or]
  exact ⟨ha, hb⟩

theorem oneLine_ofList (h : '\n' ∉ cs) : OneLine (String.ofList cs) := by
  unfold OneLine
  rwa [String.toList_ofList]

/-- Lines with something between them are one line if that and all of them are. -/
theorem OneLine.intercalate (ha : OneLine a) (h : ∀ item ∈ items, OneLine item) : OneLine (a.intercalate items) := by
  induction items with
  | nil =>
    rw [String.intercalate_nil]
    decide
  | cons first rest ih =>
    obtain ⟨hfirst, hrest⟩ := List.forall_mem_cons.1 h
    cases rest with
    | nil =>
      rw [String.intercalate_singleton]
      exact hfirst
    | cons next rest =>
      rw [String.intercalate_cons_cons]
      exact (hfirst.append ha).append (ih hrest)

theorem oneLine_nat (n : Nat) : OneLine (toString n) := by
  intro h
  have hmem : '\n' ∈ Nat.toDigits 10 n := by simpa using h
  have hdigit := Nat.isDigit_of_mem_toDigits (by decide) (by decide) hmem
  exact absurd hdigit (by decide)

theorem oneLine_int (n : Int) : OneLine (toString n) := by
  rw [Int.toString_eq_repr, Int.repr_eq_if]
  split
  · exact oneLine_nat _
  · exact OneLine.append (by decide) (oneLine_nat _)

end Strings

namespace Decimal

theorem oneLine_zeros (n : Nat) : OneLine (zeros n) :=
  oneLine_ofList fun h => absurd (List.eq_of_mem_replicate h) (by decide)

/-- Digits with a point among them are one line. -/
theorem oneLine_pointed (d : Decimal) (n : Nat) :
    OneLine (String.ofList (d.digitText.toList.take n ++ '.' :: d.digitText.toList.drop n)) := by
  refine oneLine_ofList fun h => ?_
  have hdigits : '\n' ∉ d.digitText.toList := oneLine_nat d.digits
  rcases List.mem_append.1 h with h | h
  · exact hdigits (List.mem_of_mem_take h)
  · rcases List.mem_cons.1 h with h | h
    · exact absurd h (by decide)
    · exact hdigits (List.mem_of_mem_drop h)

theorem oneLine_exponentText (d : Decimal) : OneLine d.exponentText := by
  simp only [exponentText]
  split
  · rename_i digit hdigit
    have hone : OneLine (String.ofList [digit]) := by
      rw [← hdigit]
      exact oneLine_ofList (oneLine_nat d.digits)
    exact (hone.append (by decide)).append (oneLine_int _)
  · exact ((oneLine_pointed d 1).append (by decide)).append (oneLine_int _)

theorem oneLine_asData (d : Decimal) : OneLine d.asData := by
  have hdigits : OneLine d.digitText := oneLine_nat d.digits
  simp only [asData]
  split
  · exact (hdigits.append (oneLine_zeros _)).append (by decide)
  · split
    · exact oneLine_pointed d _
    · split
      · exact (OneLine.append (by decide) (oneLine_zeros _)).append hdigits
      · exact oneLine_exponentText d

/-- A double is written on one line. -/
theorem oneLine_dataText (x : Float) : OneLine (dataText x) := by
  have hsign : OneLine (signText x) := by
    unfold signText
    split <;> decide
  refine hsign.append ?_
  split
  · decide
  · exact oneLine_asData _

end Decimal

namespace Json

/-- A character inside a string is written without a newline. -/
theorem newline_not_mem_escape (c : Char) : '\n' ∉ escape c := by
  have hdigit : ∀ n < 16, '\n' ≠ hexDigit n := by decide
  unfold escape
  by_cases hnewline : c = '\n'
  · rw [hnewline]
    decide
  -- Every other character is written by letters and digits, or as it is.
  split
  · decide
  split
  · decide
  split
  · decide
  split
  · decide
  split
  · decide
  split
  · decide
  split
  · rename_i hcontrol
    have hhigh := hdigit (c.toNat / 16) (by omega)
    have hlow := hdigit (c.toNat % 16) (by omega)
    simp [hhigh, hlow]
  · simpa using Ne.symm hnewline

theorem oneLine_quoted (s : String) : OneLine (quoted s) := by
  have hinside : '\n' ∉ s.toList.flatMap escape := by
    intro h
    obtain ⟨c, -, hc⟩ := List.mem_flatMap.1 h
    exact newline_not_mem_escape c hc
  exact oneLine_ofList (by simpa using hinside)

theorem oneLine_floatText (x : Float) : OneLine (floatText x) := by
  unfold floatText
  split
  · decide
  · exact Decimal.oneLine_dataText x

mutual

/-- **A value without blanks is one line.** -/
theorem oneLine_compact : ∀ value : Json, OneLine value.compact
  | null => by decide
  | bool true => by decide
  | bool false => by decide
  | int n => by
    rw [compact]
    exact oneLine_int n
  | float x => by
    rw [compact]
    exact oneLine_floatText x
  | str s => by
    rw [compact]
    exact oneLine_quoted s
  | arr items => by
    have hitems := OneLine.intercalate (a := ",") (by decide) (oneLine_compactItems items)
    rw [compact]
    exact (OneLine.append (by decide) hitems).append (by decide)
  | obj fields => by
    have hfields := OneLine.intercalate (a := ",") (by decide) (oneLine_compactFields fields)
    rw [compact]
    exact (OneLine.append (by decide) hfields).append (by decide)

theorem oneLine_compactItems : ∀ items : List Json, ∀ item ∈ compactItems items, OneLine item
  | [], item, h => by
    rw [compactItems] at h
    cases h
  | value :: rest, item, h => by
    rw [compactItems] at h
    rcases List.mem_cons.1 h with rfl | h
    · exact oneLine_compact value
    · exact oneLine_compactItems rest item h

theorem oneLine_compactFields : ∀ fields : List (String × Json), ∀ field ∈ compactFields fields, OneLine field
  | [], field, h => by
    rw [compactFields] at h
    cases h
  | (name, value) :: rest, field, h => by
    rw [compactFields] at h
    rcases List.mem_cons.1 h with rfl | h
    · exact ((oneLine_quoted name).append (by decide)).append (oneLine_compact value)
    · exact oneLine_compactFields rest field h

end

end Json
end Chunkwise
