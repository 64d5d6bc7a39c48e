import Chunkwise.Text.Lower

/-!
# Paths and extensions

A path is a string with `/` between its parts. The extension is what follows the last dot of the last part, in
lower case; a part without a dot, or with no dot but a leading one, has none, and neither has `..`.

* `extension?_simple`: a part `base.ext` has the extension `ext`, if `base` is not empty and `ext` has no dot.
-/

namespace Chunkwise
namespace Path

/-- The pieces between the occurrences of a character. -/
def splitAt (sep : Char) : List Char → List (List Char)
  | [] => [[]]
  | c :: cs =>
    if c = sep then [] :: splitAt sep cs
    else match splitAt sep cs with
      | [] => [[c]]
      | p :: ps => (c :: p) :: ps

/-- The parts of a path that name something: empty parts and `.` do not. -/
def parts (path : String) : List String :=
  ((splitAt '/' path.toList).filter fun p => p != [] && p != ['.']).map String.ofList

/-- What follows the last dot of a part that has something before that dot. -/
def extensionOfPart (part : List Char) : Option (List Char) :=
  if part == ['.', '.'] then none
  else
    let after := (part.reverse.takeWhile (· != '.')).reverse
    let before := part.take (part.length - after.length)
    match before.dropLast with
    | [] => none
    | _ => some after

/-- The extension of a path, as it is written. -/
def rawExtension? (path : String) : Option String :=
  (parts path).getLast?.bind fun part => (extensionOfPart part.toList).map String.ofList

/-- The extension of a path in lower case. -/
def extension? (path : String) : Option String := (rawExtension? path).map lowered

/-- A string without its leading dots. -/
def dropDots (s : String) : String := String.ofList (s.toList.dropWhile (· == '.'))

/-- A part `base.ext` has the extension `ext`. -/
theorem extension?_simple {base ext : List Char} (hb : base ≠ []) (he : ∀ c ∈ ext, c ≠ '.')
    (hd : base ++ '.' :: ext ≠ ['.', '.']) : extensionOfPart (base ++ '.' :: ext) = some ext := by
  have hrev : (base ++ '.' :: ext).reverse = ext.reverse ++ '.' :: base.reverse := by simp
  have htake : (base ++ '.' :: ext).reverse.takeWhile (· != '.') = ext.reverse := by
    rw [hrev, List.takeWhile_append_of_pos (by simpa using he)]
    simp
  have hne : ¬ (base ++ '.' :: ext == ['.', '.']) = true := by simpa using hd
  simp only [extensionOfPart, if_neg hne, htake, List.reverse_reverse]
  have hbefore : (base ++ '.' :: ext).take ((base ++ '.' :: ext).length - ext.length) = base ++ ['.'] := by
    have : (base ++ '.' :: ext).length - ext.length = (base ++ ['.']).length := by simp; omega
    rw [this, show base ++ '.' :: ext = (base ++ ['.']) ++ ext by simp, List.take_left']
    rfl
  rw [hbefore, List.dropLast_concat]
  cases base with
  | nil => exact absurd rfl hb
  | cons c b => rfl

end Path
end Chunkwise
