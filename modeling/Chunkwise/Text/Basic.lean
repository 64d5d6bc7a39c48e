/-!
# Texts and byte offsets

A text is a list of characters; a position in it is a byte offset into its UTF-8 form. Only offsets between two
characters are positions: `slice?`, `advance?` and `retreat?` give `none` at any other offset.

* `dropBytes?_append`: the offset `byteLen s` cuts `s ++ t` between `s` and `t`.
* `takeBytes?_append`: the part before that cut is `s`.
* `slice?_middle`: the slice between two cuts is what stands between them.
* `byteLen_pos`: only the empty text has no bytes.
-/

namespace Chunkwise

/-- A text, character by character. -/
abbrev Text := List Char

/-- A half-open range of byte offsets. -/
structure Span where
  start : Nat
  stop : Nat
deriving DecidableEq, Repr, Inhabited

namespace Span

/-- Whether an offset lies in the span. -/
def covers (s : Span) (pos : Nat) : Bool := s.start ≤ pos && pos < s.stop

/-- Number of bytes two spans share. -/
def shared (a b : Span) : Nat := min a.stop b.stop - max a.start b.start

/-- Whether the second span lies inside the first. -/
def encloses (a b : Span) : Bool := a.start ≤ b.start && b.stop ≤ a.stop

theorem covers_iff {s : Span} {pos : Nat} : s.covers pos ↔ s.start ≤ pos ∧ pos < s.stop := by
  simp [covers]

theorem encloses_iff {a b : Span} : a.encloses b ↔ a.start ≤ b.start ∧ b.stop ≤ a.stop := by
  simp [encloses]

end Span

namespace Text

/-- Number of bytes of a text. -/
def byteLen : Text → Nat
  | [] => 0
  | c :: cs => c.utf8Size + byteLen cs

/-- What follows the first `n` bytes; `none` if the text is shorter or `n` is inside a character. -/
def dropBytes? : Text → Nat → Option Text
  | cs, 0 => some cs
  | [], _ + 1 => none
  | c :: cs, n + 1 => if c.utf8Size ≤ n + 1 then dropBytes? cs (n + 1 - c.utf8Size) else none

/-- The first `n` bytes; `none` if the text is shorter or `n` is inside a character. -/
def takeBytes? : Text → Nat → Option Text
  | _, 0 => some []
  | [], _ + 1 => none
  | c :: cs, n + 1 =>
    if c.utf8Size ≤ n + 1 then (takeBytes? cs (n + 1 - c.utf8Size)).map (c :: ·) else none

/-- Whether an offset stands between two characters (or at an end). -/
def isBoundary (text : Text) (pos : Nat) : Bool := (dropBytes? text pos).isSome

/-- The text between two offsets, if both are positions in order. -/
def slice? (text : Text) (span : Span) : Option Text :=
  if span.start ≤ span.stop then
    (dropBytes? text span.start).bind (takeBytes? · (span.stop - span.start))
  else none

/-- The position `n` characters after `pos`, or the end of the text if that is nearer. -/
def advance? (text : Text) (pos n : Nat) : Option Nat :=
  (dropBytes? text pos).map fun rest => pos + byteLen (rest.take n)

/-- The position `n` characters before `pos`, or the start of the text if that is nearer. A move by no
characters asks nothing of the text. -/
def retreat? (text : Text) (pos n : Nat) : Option Nat :=
  if n = 0 then some pos
  else (takeBytes? text pos).map fun before => byteLen (before.take (before.length - n))

/-! ## Cutting a concatenation -/

@[simp] theorem byteLen_nil : byteLen [] = 0 := rfl

@[simp] theorem byteLen_cons (c : Char) (cs : Text) : byteLen (c :: cs) = c.utf8Size + byteLen cs := rfl

@[simp] theorem byteLen_append (s t : Text) : byteLen (s ++ t) = byteLen s + byteLen t := by
  induction s with
  | nil => simp
  | cons c s ih => simp [ih, Nat.add_assoc]

/-- Only the empty text has no bytes. -/
theorem byteLen_pos {s : Text} (h : s ≠ []) : 0 < byteLen s := by
  cases s with
  | nil => exact absurd rfl h
  | cons c s => have := c.utf8Size_pos; simp; omega

/-- A text has at least as many bytes as characters. -/
theorem length_le_byteLen (s : Text) : s.length ≤ byteLen s := by
  induction s with
  | nil => simp
  | cons c s ih => have := c.utf8Size_pos; simp; omega

@[simp] theorem dropBytes?_zero (s : Text) : dropBytes? s 0 = some s := by
  cases s <;> rfl

@[simp] theorem takeBytes?_zero (s : Text) : takeBytes? s 0 = some [] := by
  cases s <;> rfl

/-- Dropping the bytes of a first character drops the character. -/
theorem dropBytes?_cons (c : Char) (s : Text) (n : Nat) :
    dropBytes? (c :: s) (c.utf8Size + n) = dropBytes? s n := by
  have hc := c.utf8Size_pos
  obtain ⟨m, hm⟩ : ∃ m, c.utf8Size + n = m + 1 := ⟨c.utf8Size + n - 1, by omega⟩
  rw [hm, dropBytes?, if_pos (by omega)]
  congr 1; omega

/-- Taking the bytes of a first character takes the character. -/
theorem takeBytes?_cons (c : Char) (s : Text) (n : Nat) :
    takeBytes? (c :: s) (c.utf8Size + n) = (takeBytes? s n).map (c :: ·) := by
  have hc := c.utf8Size_pos
  obtain ⟨m, hm⟩ : ∃ m, c.utf8Size + n = m + 1 := ⟨c.utf8Size + n - 1, by omega⟩
  rw [hm, takeBytes?, if_pos (by omega)]
  congr 2; omega

/-- The offset `byteLen s` cuts `s ++ t` between its parts. -/
theorem dropBytes?_append (s t : Text) : dropBytes? (s ++ t) (byteLen s) = some t := by
  induction s with
  | nil => simp
  | cons c s ih => rw [List.cons_append, byteLen_cons, dropBytes?_cons, ih]

/-- The part before that cut is the first of the two. -/
theorem takeBytes?_append (s t : Text) : takeBytes? (s ++ t) (byteLen s) = some s := by
  induction s with
  | nil => simp
  | cons c s ih => rw [List.cons_append, byteLen_cons, takeBytes?_cons, ih]; rfl

/-- The slice between two cuts is the text between them. -/
theorem slice?_middle (a b c : Text) :
    slice? (a ++ (b ++ c)) ⟨byteLen a, byteLen a + byteLen b⟩ = some b := by
  simp [slice?, dropBytes?_append, takeBytes?_append]

/-- Every position splits the text in two, and is the byte length of the first part. -/
theorem exists_append_of_dropBytes? {s t : Text} {n : Nat} (h : dropBytes? s n = some t) :
    ∃ a, s = a ++ t ∧ n = byteLen a := by
  induction s generalizing n with
  | nil =>
    cases n with
    | zero => exact ⟨[], by simpa using h, rfl⟩
    | succ n => simp [dropBytes?] at h
  | cons c s ih =>
    cases n with
    | zero => exact ⟨[], by simpa using h, rfl⟩
    | succ n =>
      rw [dropBytes?] at h
      split at h
      · obtain ⟨a, rfl, ha⟩ := ih h
        exact ⟨c :: a, rfl, by simp; omega⟩
      · cases h

end Text
end Chunkwise
