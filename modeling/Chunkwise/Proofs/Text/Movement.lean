import Chunkwise.Proofs.Text.Position

/-!
# Moving by characters

A move by a number of characters begins at a position and ends at one. It passes as many characters as it was asked to,
or all there are on that side of its start (`MovesAhead`, `MovesBack`). A position is told by the number of characters
before it, on which a move adds or subtracts and is cut short at the ends of the text (`movesAhead_offset`,
`movesBack_offset`). So the move in the other direction undoes it unless it was cut short, and moves keep the order of
their starts (`moves_are_exact`).
-/

namespace Chunkwise
namespace Text

variable {text : Text} {i n pos : Nat}

/-- The offsets where the characters of a text begin. -/
def charStarts (text : Text) : List Nat := (List.range text.length).map text.offset

/-- What it is to reach a position by moving forward by some characters. -/
structure MovesAhead (text : Text) (pos n stop : Nat) : Prop where
  position : text.isBoundary stop
  le : pos ≤ stop
  le_byteLen : stop ≤ text.byteLen
  passed : text.charsIn ⟨pos, stop⟩ = min n (text.charsIn ⟨pos, text.byteLen⟩)
  /-- Counted from 0, the `n`-th of the characters ahead begins there; with no such character it is the end. -/
  lands : stop = (text.charStarts.filter (pos ≤ ·))[n]?.getD text.byteLen

/-- What it is to reach a position by moving backward by some characters. -/
structure MovesBack (text : Text) (pos n start : Nat) : Prop where
  position : text.isBoundary start
  le : start ≤ pos
  passed : text.charsIn ⟨start, pos⟩ = min n (text.charsIn ⟨0, pos⟩)
  /-- Counted from 1, the `n`-th of the characters behind begins there; with no such character it is the start. -/
  lands : 0 < n → start = (text.charStarts.filter (· < pos)).reverse[n - 1]?.getD 0

/-! ## The characters on both sides of a position -/

/-- The first of the starts of characters are those before a position, the others those from it on. -/
theorem charStarts_eq (text : Text) (hi : i ≤ text.length) :
    text.charStarts = (List.range i).map text.offset ++ (List.range' i (text.length - i)).map text.offset := by
  have hrange := List.range'_append_1 (s := 0) (m := i) (n := text.length - i)
  rw [Nat.zero_add, Nat.add_sub_cancel' hi, ← List.range_eq_range', ← List.range_eq_range'] at hrange
  rw [charStarts, ← hrange, List.map_append]

theorem filter_charStarts_ahead (hi : i ≤ text.length) :
    text.charStarts.filter (text.offset i ≤ ·) = (List.range' i (text.length - i)).map text.offset := by
  have hbehind : ((List.range i).map text.offset).filter (text.offset i ≤ ·) = [] := by
    simp only [List.filter_eq_nil_iff, List.mem_map, List.mem_range, decide_eq_true_eq, Nat.not_le]
    rintro _ ⟨j, hj, rfl⟩
    exact offset_lt_offset hj hi
  have hahead : ((List.range' i (text.length - i)).map text.offset).filter (text.offset i ≤ ·) =
      (List.range' i (text.length - i)).map text.offset := by
    simp only [List.filter_eq_self, List.mem_map, List.mem_range'_1, decide_eq_true_eq]
    rintro _ ⟨j, hj, rfl⟩
    exact offset_le_offset text hj.1
  rw [charStarts_eq text hi, List.filter_append, hbehind, hahead, List.nil_append]

theorem filter_charStarts_behind (hi : i ≤ text.length) :
    text.charStarts.filter (· < text.offset i) = (List.range i).map text.offset := by
  have hbehind : ((List.range i).map text.offset).filter (· < text.offset i) = (List.range i).map text.offset := by
    simp only [List.filter_eq_self, List.mem_map, List.mem_range, decide_eq_true_eq]
    rintro _ ⟨j, hj, rfl⟩
    exact offset_lt_offset hj hi
  have hahead : ((List.range' i (text.length - i)).map text.offset).filter (· < text.offset i) = [] := by
    simp only [List.filter_eq_nil_iff, List.mem_map, List.mem_range'_1, decide_eq_true_eq, Nat.not_lt]
    rintro _ ⟨j, hj, rfl⟩
    exact offset_le_offset text hj.1
  rw [charStarts_eq text hi, List.filter_append, hbehind, hahead, List.append_nil]

/-! ## Moves on numbers of characters -/

/-- Moving forward from behind the first `i` characters ends behind the first `i + n`. -/
theorem movesAhead_offset (hi : i ≤ text.length) (n : Nat) :
    text.MovesAhead (text.offset i) n (text.offset (i + n)) where
  position := isBoundary_offset text _
  le := offset_le_offset text (Nat.le_add_right i n)
  le_byteLen := offset_le_byteLen text _
  passed := by
    rw [← offset_length, ← offset_min_length text (i + n), charsIn_offset hi (Nat.min_le_right _ _),
      charsIn_offset hi (Nat.le_refl _)]
    omega
  lands := by
    rw [filter_charStarts_ahead hi, List.getElem?_map]
    rcases Nat.lt_or_ge n (text.length - i) with hn | hn
    · rw [List.getElem?_range' hn, Option.map_some, Option.getD_some, Nat.one_mul]
    · rw [List.getElem?_eq_none (by rwa [List.length_range']), Option.map_none, Option.getD_none]
      exact offset_of_length_le (by omega)

/-- Moving backward from behind the first `i` characters ends behind the first `i - n`. -/
theorem movesBack_offset (hi : i ≤ text.length) (n : Nat) :
    text.MovesBack (text.offset i) n (text.offset (i - n)) where
  position := isBoundary_offset text _
  le := offset_le_offset text (Nat.sub_le i n)
  passed := by
    have hstart : text.charsIn ⟨0, text.offset i⟩ = i := by
      rw [← @offset_zero text, charsIn_offset (Nat.zero_le _) hi, Nat.sub_zero]
    rw [charsIn_offset (by omega) hi, hstart]
    omega
  lands := by
    intro hn
    rw [filter_charStarts_behind hi]
    rcases Nat.lt_or_ge i n with hlt | hge
    · rw [List.getElem?_eq_none (by simp; omega), Option.getD_none, Nat.sub_eq_zero_of_le (Nat.le_of_lt hlt),
        offset_zero]
    · rw [List.getElem?_reverse (by simp; omega), List.length_map, List.length_range, List.getElem?_map,
        List.getElem?_range (by omega), Option.map_some, Option.getD_some]
      congr 1
      omega

/-- **Moves are exact.** From a position both moves reach one, with the characters between that were asked for or all
there are; unless it was cut short, each is undone by the other; and what begins further on, moves further forward or
less far back, ends no earlier. -/
theorem moves_are_exact (hpos : text.isBoundary pos) (n : Nat) :
    ∃ stop start, text.advance? pos n = some stop ∧ text.MovesAhead pos n stop ∧
      text.retreat? pos n = some start ∧ text.MovesBack pos n start ∧
      (n ≤ text.charsIn ⟨pos, text.byteLen⟩ → text.retreat? stop n = some pos) ∧
      (n ≤ text.charsIn ⟨0, pos⟩ → text.advance? start n = some pos) ∧
      ∀ pos', text.isBoundary pos' → pos ≤ pos' →
        (∀ m, n ≤ m → ∃ stop', text.advance? pos' m = some stop' ∧ stop ≤ stop') ∧
        ∀ m, m ≤ n → ∃ start', text.retreat? pos' m = some start' ∧ start ≤ start' := by
  obtain ⟨i, hi, rfl⟩ := isBoundary_iff.1 hpos
  refine ⟨_, _, advance?_offset text i n, movesAhead_offset hi n, retreat?_offset hi n, movesBack_offset hi n,
    ?_, ?_, ?_⟩
  · intro hn
    rw [← offset_length, charsIn_offset hi (Nat.le_refl _)] at hn
    rw [retreat?_offset (by omega), Nat.add_sub_cancel]
  · intro hn
    rw [← @offset_zero text, charsIn_offset (Nat.zero_le _) hi, Nat.sub_zero] at hn
    rw [advance?_offset, Nat.sub_add_cancel hn]
  · intro pos' hpos' hle
    obtain ⟨j, hj, rfl⟩ := isBoundary_iff.1 hpos'
    have hij : i ≤ j := (offset_le_iff hi).1 hle
    constructor
    · intro m hm
      exact ⟨_, advance?_offset text j m, offset_le_offset text (by omega)⟩
    · intro m hm
      exact ⟨_, retreat?_offset hj m, offset_le_offset text (by omega)⟩

/-- A text in which one of the characters has two bytes. -/
def helloText : Text := ['h', 'é', 'l', 'l', 'o']

/-- One character forward and one back over the character of two bytes; a longer move from further on is cut short. -/
theorem moves_are_exact_hello : helloText.isBoundary 3 ∧
    helloText.advance? 3 1 = some 4 ∧ helloText.MovesAhead 3 1 4 ∧
    helloText.retreat? 3 1 = some 1 ∧ helloText.MovesBack 3 1 1 ∧
    1 ≤ helloText.charsIn ⟨3, helloText.byteLen⟩ ∧ helloText.retreat? 4 1 = some 3 ∧
    1 ≤ helloText.charsIn ⟨0, 3⟩ ∧ helloText.advance? 1 1 = some 3 ∧
    helloText.isBoundary 5 ∧ (∃ stop, helloText.advance? 5 4 = some stop ∧ 4 ≤ stop) ∧
    ∃ start, helloText.retreat? 5 1 = some start ∧ 1 ≤ start := by
  have hpos : helloText.isBoundary 3 := by decide
  have hpos' : helloText.isBoundary 5 := by decide
  have hfar : 1 ≤ helloText.charsIn ⟨3, helloText.byteLen⟩ := by decide
  have hnear : 1 ≤ helloText.charsIn ⟨0, 3⟩ := by decide
  have hstop : helloText.advance? 3 1 = some 4 := by decide
  have hstart : helloText.retreat? 3 1 = some 1 := by decide
  obtain ⟨stop, start, hadvance, hahead, hretreat, hback, hundo, hundo', horder⟩ := moves_are_exact hpos 1
  obtain rfl : 4 = stop := Option.some.inj (hstop.symm.trans hadvance)
  obtain rfl : 1 = start := Option.some.inj (hstart.symm.trans hretreat)
  obtain ⟨hforward, hbackward⟩ := horder 5 hpos' (by decide)
  exact ⟨hpos, hstop, hahead, hstart, hback, hfar, hundo hfar, hnear, hundo' hnear, hpos', hforward 4 (by decide),
    hbackward 1 (by decide)⟩

end Text
end Chunkwise
