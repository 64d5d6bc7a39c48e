import Chunkwise.Text.Blank

/-!
# What trimming leaves

A text without its trailing characters of a class is the one part of it that ends in no such character and has none but
such characters behind it (`exists_dropTrailing`, `dropTrailing_append`). A text that neither begins nor ends with a blank
character is its own trimmed text (`trim_eq_self`), and every trimmed text is of this kind.
-/

namespace Chunkwise
namespace Text

variable {p : Char → Bool} {s kept dropped : Text}

/-- What is dropped from the end of a text, and what is left. -/
theorem exists_dropTrailing (p : Char → Bool) (s : Text) : ∃ dropped, s = dropTrailing p s ++ dropped ∧
    (∀ c ∈ dropped, p c) ∧ ∀ c, (dropTrailing p s).getLast? = some c → ¬ p c := by
  refine ⟨(s.reverse.takeWhile p).reverse, ?_, fun c hc => ?_, fun c hc => ?_⟩
  · rw [dropTrailing, ← List.reverse_append, List.takeWhile_append_dropWhile, List.reverse_reverse]
  · exact List.all_eq_true.1 List.all_takeWhile c (List.mem_reverse.1 hc)
  · rw [dropTrailing, List.getLast?_reverse] at hc
    have hhead := List.head?_dropWhile_not p s.reverse
    rw [hc] at hhead
    simpa using hhead

theorem dropTrailing_append (hkept : ∀ c, kept.getLast? = some c → ¬ p c) (hdropped : ∀ c ∈ dropped, p c) :
    dropTrailing p (kept ++ dropped) = kept := by
  have hlast : kept.reverse.dropWhile p = kept.reverse := by
    cases hrev : kept.reverse with
    | nil => rfl
    | cons c rest =>
      have hc : kept.getLast? = some c := by rw [← List.head?_reverse, hrev, List.head?_cons]
      exact List.dropWhile_cons_of_neg (hkept c hc)
  rw [dropTrailing, List.reverse_append, List.dropWhile_append_of_pos fun c hc => hdropped c (List.mem_reverse.1 hc), hlast,
    List.reverse_reverse]

/-- What is left begins as the text does. -/
theorem dropTrailing_prefix (p : Char → Bool) (s : Text) : dropTrailing p s <+: s := by
  obtain ⟨dropped, hs, -, -⟩ := exists_dropTrailing p s
  exact ⟨dropped, hs.symm⟩

/-- A trimmed text begins with no blank character. -/
theorem not_isBlankChar_head_trim (s : Text) {c : Char} (h : (trim s).head? = some c) : ¬ isBlankChar c := by
  obtain ⟨rest, hrest⟩ := List.head?_eq_some_iff.1 h
  obtain ⟨after, hafter⟩ := dropTrailing_prefix isBlankChar (trimLeft s)
  refine not_isBlankChar_of_trimLeft (s := s) (t := rest ++ after) ?_
  rw [← hafter, ← trim, hrest, List.cons_append]

theorem trim_eq_self (hhead : ∀ c, s.head? = some c → ¬ isBlankChar c)
    (hlast : ∀ c, s.getLast? = some c → ¬ isBlankChar c) : trim s = s := by
  have hleft : trimLeft s = s := by
    cases s with
    | nil => rfl
    | cons c s => exact List.dropWhile_cons_of_neg (hhead c rfl)
  have hright : dropTrailing isBlankChar (s ++ []) = s :=
    dropTrailing_append hlast (fun c hc => absurd hc List.not_mem_nil)
  rw [trim, hleft]
  rwa [List.append_nil] at hright

theorem trim_trim (s : Text) : trim (trim s) = trim s := by
  obtain ⟨-, -, -, hlast⟩ := exists_dropTrailing isBlankChar (trimLeft s)
  exact trim_eq_self (fun c hc => not_isBlankChar_head_trim s hc) hlast

end Text
end Chunkwise
