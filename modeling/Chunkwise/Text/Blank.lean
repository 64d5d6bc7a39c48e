import Chunkwise.Text.Basic

/-!
# Blank characters

The characters with the property White_Space, and what trimming removes. Every character that core counts as
whitespace is blank (`isBlank_of_isWhitespace`), and a text is blank when trimming leaves nothing
(`trim_eq_nil_iff`).
-/

namespace Chunkwise

/-- Whether a character has the property White_Space. -/
def isBlankChar (c : Char) : Bool :=
  let n := c.toNat
  (9 ≤ n && n ≤ 13) || n == 32 || n == 0x85 || n == 0xA0 || n == 0x1680 || (0x2000 ≤ n && n ≤ 0x200A)
    || n == 0x2028 || n == 0x2029 || n == 0x202F || n == 0x205F || n == 0x3000

/-- Whether a character is a blank or a tab. -/
def isGap (c : Char) : Bool := c == ' ' || c == '\t'

/-- Every whitespace character of core is blank. -/
theorem isBlank_of_isWhitespace {c : Char} (h : c.isWhitespace) : isBlankChar c := by
  simp only [Char.isWhitespace, Bool.or_eq_true, decide_eq_true_eq] at h
  rcases h with ((rfl | rfl) | rfl) | rfl <;> decide

namespace Text

/-- Whether a text has blank characters only. -/
def isBlank (text : Text) : Bool := text.all isBlankChar

/-- A text without its leading blank characters. -/
def trimLeft (text : Text) : Text := text.dropWhile isBlankChar

/-- A text without its trailing characters of a class. -/
def dropTrailing (p : Char → Bool) (text : Text) : Text := (text.reverse.dropWhile p).reverse

/-- A text without its leading and trailing blank characters. -/
def trim (text : Text) : Text := dropTrailing isBlankChar (trimLeft text)

/-- Trimming on the left leaves nothing of blank texts, and of them only. -/
theorem trimLeft_eq_nil_iff {s : Text} : trimLeft s = [] ↔ isBlank s := by
  induction s with
  | nil => simp [trimLeft, isBlank]
  | cons c s ih =>
    by_cases h : isBlankChar c
    · have hs : trimLeft (c :: s) = trimLeft s := by simp [trimLeft, h]
      rw [hs, ih]
      simp [isBlank, h]
    · simp [trimLeft, isBlank, h]

/-- What is left after trimming on the left starts with no blank character. -/
theorem not_isBlankChar_of_trimLeft {s t : Text} {c : Char} (h : trimLeft s = c :: t) : ¬ isBlankChar c := by
  induction s with
  | nil => simp [trimLeft] at h
  | cons d s ih =>
    by_cases hd : isBlankChar d
    · exact ih (by simpa [trimLeft, hd] using h)
    · simp only [trimLeft, List.dropWhile_cons, hd] at h
      cases h; exact hd

/-- Trimming leaves nothing of blank texts, and of them only. -/
theorem trim_eq_nil_iff {s : Text} : trim s = [] ↔ isBlank s := by
  rw [← trimLeft_eq_nil_iff, trim, dropTrailing, List.reverse_eq_nil_iff]
  constructor
  · intro h
    cases hs : trimLeft s with
    | nil => rfl
    | cons c t =>
      have hall : (c :: t).reverse.all isBlankChar := by
        rw [hs] at h
        exact (trimLeft_eq_nil_iff (s := (c :: t).reverse)).1 h
      have hc := not_isBlankChar_of_trimLeft hs
      simp only [List.all_reverse, List.all_cons, Bool.and_eq_true] at hall
      exact absurd hall.1 hc
  · intro h; rw [h]; rfl

end Text

/-- A string without its leading and trailing blank characters. -/
def trimmed (s : String) : String := String.ofList (Text.trim s.toList)

end Chunkwise
