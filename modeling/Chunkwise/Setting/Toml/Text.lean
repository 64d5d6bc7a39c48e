import Chunkwise.Text.Blank
import Chunkwise.Text.Numeral

/-!
# Strings and keys in TOML

A reader takes what stands at the front of a text and leaves the rest. Strings are on one line or on several, between
double quotes, where a backslash escapes, or between single quotes, where nothing does. A key has parts with points
between them, and each part is bare or a string on one line.

* `escape?_lt`, `lineBody_lt`, `scanKeyPart_lt`: what is read is taken away, so that reading ends.
-/

namespace Chunkwise
namespace Toml

/-- What a reader of a part of a text finds, with what follows it. -/
abbrev Scan (α : Type) := Option (α × List Char)

/-! ## Characters -/

/-- What follows blanks and tabs. -/
def skipGap (cs : List Char) : List Char := cs.dropWhile isGap

/-- Whether a character may stand in a comment. -/
def isPrintable (c : Char) : Bool := c == '\t' || (32 ≤ c.toNat && c.toNat ≠ 127)

/-- Whether a character may stand in a key without quotes. -/
def isBareKey (c : Char) : Bool := c.isAlphanum || c == '_' || c == '-'

/-- What follows a comment, if one stands here. -/
def skipComment : List Char → List Char
  | '#' :: rest => rest.dropWhile isPrintable
  | cs => cs

/-- What follows the end of a line; the end of the text is one too. -/
def endLine : List Char → Option (List Char)
  | [] => some []
  | '\n' :: rest => some rest
  | '\r' :: '\n' :: rest => some rest
  | _ => none

/-- What follows the rest of a line that says no more. -/
def finishLine (cs : List Char) : Option (List Char) := endLine (skipComment (skipGap cs))

/-- What follows blanks, newlines and comments, with the text of a comment in front or not. -/
def skipLines (inComment : Bool) : List Char → List Char
  | [] => []
  | '\n' :: rest => skipLines false rest
  | '\r' :: '\n' :: rest => skipLines false rest
  | c :: rest =>
    if inComment then (if isPrintable c then skipLines true rest else c :: rest)
    else if isGap c then skipLines false rest
    else if c = '#' then skipLines true rest
    else c :: rest

/-- What follows blanks and newlines. -/
def skipWhite : List Char → List Char
  | [] => []
  | '\n' :: rest => skipWhite rest
  | '\r' :: '\n' :: rest => skipWhite rest
  | c :: rest => if isGap c then skipWhite rest else c :: rest

/-- What follows a newline, if one stands here. -/
def skipNewline : List Char → List Char
  | '\n' :: rest => rest
  | '\r' :: '\n' :: rest => rest
  | cs => cs

/-- Skipping blanks adds nothing. -/
theorem skipGap_le (cs : List Char) : (skipGap cs).length ≤ cs.length :=
  (List.dropWhile_sublist _).length_le

/-- Skipping blanks and newlines adds nothing. -/
theorem skipWhite_le (cs : List Char) : (skipWhite cs).length ≤ cs.length := by
  fun_induction skipWhite cs with
  | case1 => exact Nat.le_refl _
  | case2 rest ih => exact Nat.le_succ_of_le ih
  | case3 rest ih => exact Nat.le_succ_of_le (Nat.le_succ_of_le ih)
  | case4 c rest _ _ _ ih => exact Nat.le_succ_of_le ih
  | case5 => exact Nat.le_refl _

/-! ## Strings -/

/-- The character of an escape behind its backslash. -/
def escape? : List Char → Scan Char
  | 'b' :: rest => some (Char.ofNat 8, rest)
  | 't' :: rest => some ('\t', rest)
  | 'n' :: rest => some ('\n', rest)
  | 'f' :: rest => some (Char.ofNat 12, rest)
  | 'r' :: rest => some ('\r', rest)
  | '"' :: rest => some ('"', rest)
  | '\\' :: rest => some ('\\', rest)
  | 'u' :: rest => (hexChar? 4 rest).map (·, rest.drop 4)
  | 'U' :: rest => (hexChar? 8 rest).map (·, rest.drop 8)
  | _ => none

/-- An escape is taken away. -/
theorem escape?_lt {cs rest : List Char} {c : Char} (h : escape? cs = some (c, rest)) :
    rest.length < cs.length := by
  unfold escape? at h
  split at h
  all_goals first
    | (simp only [Option.some.injEq, Prod.mk.injEq] at h
       obtain ⟨_, rfl⟩ := h
       exact Nat.lt_succ_self _)
    | (simp only [Option.map_eq_some_iff, Prod.mk.injEq] at h
       obtain ⟨_, _, _, rfl⟩ := h
       rw [List.length_cons, List.length_drop]
       omega)
    | cases h

/-- The characters of a string on one line, up to its quote. -/
def lineBody (quote : Char) : List Char → Scan (List Char)
  | [] => none
  | c :: rest =>
    if c = quote then some ([], rest)
    else if c = '\\' && quote == '"' then
      match h : escape? rest with
      | none => none
      | some (e, rest') =>
        have := escape?_lt h
        (lineBody quote rest').map fun (cs, after) => (e :: cs, after)
    else if isPrintable c then (lineBody quote rest).map fun (cs, after) => (c :: cs, after)
    else none
termination_by cs => cs.length
decreasing_by all_goals (rw [List.length_cons]; omega)

/-- A string on one line is taken away with its quote. -/
theorem lineBody_lt {quote : Char} {cs text rest : List Char} (h : lineBody quote cs = some (text, rest)) :
    rest.length < cs.length := by
  fun_induction lineBody quote cs generalizing text with
  | case1 => cases h
  | case2 =>
    cases h
    exact Nat.lt_succ_self _
  | case3 => cases h
  | case4 c tail _ _ e tail' _ hlt ih =>
    obtain ⟨⟨text', rest'⟩, hb, heq⟩ := Option.map_eq_some_iff.mp h
    cases heq
    exact Nat.lt_succ_of_lt (Nat.lt_trans (ih hb) hlt)
  | case5 c tail _ _ _ ih =>
    obtain ⟨⟨text', rest'⟩, hb, heq⟩ := Option.map_eq_some_iff.mp h
    cases heq
    exact Nat.lt_succ_of_lt (ih hb)
  | case6 => cases h

/-- Whether a backslash here hides the end of its line. -/
def hidesLineEnd (rest : List Char) : Bool :=
  match skipGap rest with
  | '\n' :: _ => true
  | '\r' :: '\n' :: _ => true
  | _ => false

/-- The characters of a string on several lines, up to three quotes; two more may stand before those. -/
def linesBody (quote : Char) : List Char → Scan (List Char)
  | [] => none
  | c :: rest =>
    if c = quote then
      let run := ((c :: rest).takeWhile (· == quote)).length
      if 3 ≤ run then
        if 5 < run then none else some (List.replicate (run - 3) quote, (c :: rest).drop run)
      else (linesBody quote rest).map fun (cs, after) => (c :: cs, after)
    else if c = '\\' && quote == '"' then
      if hidesLineEnd rest then
        have := skipWhite_le rest
        linesBody quote (skipWhite rest)
      else match h : escape? rest with
        | none => none
        | some (e, rest') =>
          have := escape?_lt h
          (linesBody quote rest').map fun (cs, after) => (e :: cs, after)
    else if c = '\r' then
      match rest with
      | '\n' :: rest => (linesBody quote rest).map fun (cs, after) => ('\n' :: cs, after)
      | _ => none
    else if isPrintable c || c = '\n' then (linesBody quote rest).map fun (cs, after) => (c :: cs, after)
    else none
termination_by cs => cs.length
decreasing_by all_goals (simp only [List.length_cons]; omega)

/-- A reader of characters as a reader of a text. -/
def asText (found : Scan (List Char)) : Scan String := found.map fun (cs, rest) => (String.ofList cs, rest)

/-- A string in any of its four forms. -/
def scanString : List Char → Scan String
  | '"' :: '"' :: '"' :: rest => asText (linesBody '"' (skipNewline rest))
  | '\'' :: '\'' :: '\'' :: rest => asText (linesBody '\'' (skipNewline rest))
  | '"' :: rest => asText (lineBody '"' rest)
  | '\'' :: rest => asText (lineBody '\'' rest)
  | _ => none

/-! ## Keys -/

/-- One part of a key. -/
def scanKeyPart : List Char → Scan String
  | '"' :: rest => asText (lineBody '"' rest)
  | '\'' :: rest => asText (lineBody '\'' rest)
  | cs =>
    match cs.takeWhile isBareKey with
    | [] => none
    | key => some (String.ofList key, cs.dropWhile isBareKey)

/-- A part of a key is taken away. -/
theorem scanKeyPart_lt {cs rest : List Char} {part : String} (h : scanKeyPart cs = some (part, rest)) :
    rest.length < cs.length := by
  have quoted {quote : Char} {tail : List Char} (ht : asText (lineBody quote tail) = some (part, rest)) :
      rest.length < tail.length + 1 := by
    obtain ⟨⟨text, rest'⟩, hb, heq⟩ := Option.map_eq_some_iff.mp ht
    cases heq
    exact Nat.lt_succ_of_lt (lineBody_lt hb)
  unfold scanKeyPart at h
  split at h
  · exact quoted h
  · exact quoted h
  · split at h
    · cases h
    · rename_i hne
      simp only [Option.some.injEq, Prod.mk.injEq] at h
      obtain ⟨_, rfl⟩ := h
      have hlen := congrArg List.length (List.takeWhile_append_dropWhile (p := isBareKey) (l := cs))
      have hpos := List.length_pos_iff.mpr hne
      rw [List.length_append] at hlen
      omega

/-- A key with its parts. -/
def scanKey (cs : List Char) : Scan (List String) :=
  match h : scanKeyPart (skipGap cs) with
  | none => none
  | some (part, rest) =>
    have := Nat.lt_of_lt_of_le (scanKeyPart_lt h) (skipGap_le cs)
    match hr : skipGap rest with
    | '.' :: rest' =>
      have := hr ▸ skipGap_le rest
      (scanKey rest').map fun (parts, after) => (part :: parts, after)
    | rest' => some ([part], rest')
termination_by cs.length
decreasing_by
  simp only [List.length_cons] at *
  omega

end Toml
end Chunkwise
