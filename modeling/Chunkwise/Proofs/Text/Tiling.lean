import Chunkwise.Proofs.Text.Bytes

/-!
# Lines tile their text

The starts of lines are in order, so that the line of an offset is the last one that starts no later
(`LineTable.lt_lineOf_iff`). This line holds the offset (`lineStart_lineOf_le`, `lt_lineEnd_lineOf`), no other one does
(`lineOf_eq_of_holds`), and a newline byte ends it (`lineEnd_le_of_newline`). Numbers and offsets that are too large lead
to the end of the text and to its last line. Together: `LineTable.lines_tile_text`.
-/

namespace Chunkwise

/-! ## The starts of lines -/

namespace Text

variable {s : Text} {p start : Nat}

/-- Every line but the first begins before the end of the text. -/
theorem lt_of_mem_startsFrom (h : start ∈ startsFrom p s) : start < p + byteLen s := by
  induction s generalizing p with
  | nil => cases h
  | cons c s ih =>
    rw [byteLen_cons, ← Nat.add_assoc]
    rw [startsFrom] at h
    split at h
    · rename_i hc
      rw [Bool.and_eq_true] at hc
      rcases List.mem_cons.1 h with rfl | h
      · exact Nat.lt_add_of_pos_right (byteLen_pos (by simpa using hc.2))
      · exact ih h
    · exact ih h

end Text

/-- In an ascending list the members up to a bound come first. -/
theorem lt_countP_iff {l : List Nat} {i a bound : Nat} (h : l.Pairwise (· < ·)) (hi : l[i]? = some a) :
    i < l.countP (fun m => decide (m ≤ bound)) ↔ a ≤ bound := by
  induction l generalizing i with
  | nil => cases hi
  | cons first l ih =>
    obtain ⟨hfirst, hrest⟩ := List.pairwise_cons.1 h
    by_cases hle : first ≤ bound
    · rw [List.countP_cons, if_pos (decide_eq_true hle)]
      cases i with
      | zero =>
        cases hi
        exact iff_of_true (Nat.succ_pos _) hle
      | succ i => rw [Nat.succ_lt_succ_iff, ih hrest hi]
    · have hnone : l.countP (fun m => decide (m ≤ bound)) = 0 :=
        List.countP_eq_zero.2 fun m hm hbound => hle (Nat.le_trans (Nat.le_of_lt (hfirst m hm)) (of_decide_eq_true hbound))
      rw [List.countP_cons, if_neg (by simpa using hle), hnone]
      cases i with
      | zero =>
        cases hi
        exact iff_of_false (Nat.lt_irrefl 0) hle
      | succ i =>
        have hlt := hfirst a (List.mem_of_getElem? hi)
        exact iff_of_false (Nat.not_lt_zero _) fun hbound => hle (by omega)

namespace LineTable

variable {text : Text} {i pos line start : Nat}

/-- There is a start for each line, and one for a text without any. -/
theorem length_starts (text : Text) : (ofText text).starts.length = max 1 (Text.pieces text).length := by
  have hlength : (ofText text).starts.length = text.dropLast.count '\n' + 1 :=
    congrArg (· + 1) (Text.length_startsFrom 0 text)
  by_cases htext : text = []
  · subst htext
    rfl
  · rw [hlength, Text.length_pieces htext]
    omega

/-- **The line of an offset is the last one that starts no later.** -/
theorem lt_lineOf_iff (h : (ofText text).starts[i]? = some start) : i < (ofText text).lineOf pos ↔ start ≤ pos :=
  lt_countP_iff (pairwise_starts text) h

theorem lineStart_lineOf_le (text : Text) (pos : Nat) : (ofText text).lineStart ((ofText text).lineOf pos) ≤ pos := by
  obtain ⟨i, hi⟩ := Nat.exists_eq_add_one_of_ne_zero (Nat.pos_iff_ne_zero.1 ((ofText text).lineOf_pos pos))
  have hlength : (ofText text).lineOf pos ≤ (ofText text).starts.length := List.countP_le_length
  have hget : (ofText text).starts[i]? = some (ofText text).starts[i] := List.getElem?_eq_getElem (by omega)
  rw [hi, lineStart, hget, Option.getD_some]
  exact (lt_lineOf_iff hget).1 (by omega)

theorem lt_lineEnd_lineOf (h : pos < Text.byteLen text) : pos < (ofText text).lineEnd ((ofText text).lineOf pos) := by
  rw [lineEnd]
  cases hget : (ofText text).starts[(ofText text).lineOf pos]? with
  | none => exact h
  | some start =>
    have hafter := mt (lt_lineOf_iff hget).2 (Nat.lt_irrefl _)
    exact Nat.lt_of_not_le hafter

/-- No other line than its own holds an offset. -/
theorem lineOf_eq_of_holds (hpos : pos < Text.byteLen text) (hstart : (ofText text).lineStart line ≤ pos)
    (hend : pos < (ofText text).lineEnd line) : (ofText text).lineOf pos = line := by
  have hbelow := lineStart_lineOf_le text pos
  have habove := lt_lineEnd_lineOf hpos
  rcases Nat.lt_trichotomy ((ofText text).lineOf pos) line with hlt | heq | hlt
  · have hle : (ofText text).lineEnd ((ofText text).lineOf pos) ≤ _ := lineEnd_le_lineStart hlt
    omega
  · exact heq
  · have hle : (ofText text).lineEnd line ≤ _ := lineEnd_le_lineStart hlt
    omega

/-- What is behind the last start is at the end of the text. -/
theorem lineStart_of_length_lt (h : (ofText text).starts.length < line) :
    (ofText text).lineStart line = Text.byteLen text := by
  obtain ⟨i, rfl⟩ := Nat.exists_eq_add_one_of_ne_zero (show line ≠ 0 by omega)
  rw [lineStart, List.getElem?_eq_none (by omega), Option.getD_none]
  rfl

theorem lineOf_of_byteLen_le (h : Text.byteLen text ≤ pos) : (ofText text).lineOf pos = (ofText text).starts.length := by
  rw [lineOf, List.countP_eq_length]
  intro start hstart
  rw [decide_eq_true_eq]
  rcases List.mem_cons.1 hstart with rfl | hstart
  · exact Nat.zero_le _
  · have hlt := Text.lt_of_mem_startsFrom hstart
    omega

/-- Behind a newline byte begins another line: the line that holds it ends there. -/
theorem lineEnd_le_of_newline (hpos : (Text.bytes text)[pos]? = some Text.newlineByte)
    (hstart : (ofText text).lineStart line ≤ pos) : (ofText text).lineEnd line ≤ pos + 1 := by
  -- Else the line would hold the byte behind the newline as well, which is one row further down.
  refine Nat.le_of_not_lt fun hlt => ?_
  have hsize : (ofText text).lineEnd line ≤ Text.byteLen text := lineStart_le_size text (line + 1)
  have hhere : (ofText text).lineOf pos = line := lineOf_eq_of_holds (by omega) hstart (by omega)
  have hnext : (ofText text).lineOf (pos + 1) = line := lineOf_eq_of_holds (by omega) (by omega) hlt
  rw [lineOf_eq (by omega)] at hhere hnext
  rw [Text.rowAt_succ hpos, if_pos rfl] at hnext
  omega

/-- What it is for the first `n` lines of a table to tile a text. -/
structure Tiles (t : LineTable) (text : Text) (n : Nat) : Prop where
  /-- The first line begins where the text does. -/
  first : t.lineStart 1 = 0
  /-- The last line ends where the text does. -/
  last : t.lineEnd n = Text.byteLen text
  /-- Each line begins where the one above it ends. -/
  consecutive : ∀ line, 0 < line → line < n → t.lineStart (line + 1) = t.lineEnd line
  /-- No line ends before it begins, or contains a newline other than as its last byte. -/
  newline_last : ∀ line, 0 < line → line ≤ n → t.lineStart line ≤ t.lineEnd line ∧
    ∀ pos, t.lineStart line ≤ pos → pos + 1 < t.lineEnd line → (Text.bytes text)[pos]? ≠ some Text.newlineByte
  /-- A line is a piece of the text. -/
  slice : ∀ row piece, (Text.pieces text)[row]? = some piece →
    row < n ∧ text.slice? ⟨t.lineStart (row + 1), t.lineEnd (row + 1)⟩ = some piece
  /-- The lines that start no later than an offset are the first ones, up to its own. -/
  partition : ∀ i start pos, t.starts[i]? = some start → (i < t.lineOf pos ↔ start ≤ pos)
  /-- The line of an offset in the text is told by the newlines before it. -/
  lineOf_eq : ∀ pos, pos < Text.byteLen text → t.lineOf pos = 1 + ((Text.bytes text).take pos).count Text.newlineByte
  /-- The line of an offset in the text holds it. -/
  holds : ∀ pos, pos < Text.byteLen text → t.lineStart (t.lineOf pos) ≤ pos ∧ pos < t.lineEnd (t.lineOf pos)
  /-- There is nothing on a line behind the last one. -/
  beyond : ∀ line, n < line → t.lineStart line = Text.byteLen text ∧ t.lineEnd line = Text.byteLen text
  /-- Offsets behind the text are on the last line. -/
  behind : ∀ pos, Text.byteLen text ≤ pos → t.lineOf pos = n

/-- **The lines of a text tile it**, as many as it has pieces, or one if it has none. -/
theorem lines_tile_text (text : Text) : (ofText text).Tiles text (max 1 (Text.pieces text).length) := by
  rw [← length_starts text]
  constructor
  case first => exact lineStart_one _
  case last =>
    rw [lineEnd_eq_lineStart_succ]
    exact lineStart_of_length_lt (Nat.lt_succ_self _)
  case consecutive => exact fun line _ _ => (lineEnd_eq_lineStart_succ _ line).symm
  case newline_last =>
    intro line hline hle
    refine ⟨?_, fun pos hstart hend hnewline => ?_⟩
    · rw [lineEnd_eq_lineStart_succ]
      exact lineStart_le_lineStart hline (Nat.le_succ line)
    · have hstop := lineEnd_le_of_newline hnewline hstart
      omega
  case slice =>
    intro row piece hpiece
    have hrow := (List.getElem?_eq_some_iff.1 hpiece).1
    have hslice := slice?_lineText text (Nat.succ_pos row)
    have hline : (ofText text).lineText (row + 1) = piece := by
      rw [lineText, ofText, hpiece, Option.getD_some]
    rw [hline] at hslice
    refine ⟨?_, hslice⟩
    rw [length_starts]
    omega
  case partition => exact fun i start pos hget => lt_lineOf_iff hget
  case lineOf_eq =>
    intro pos hpos
    rw [LineTable.lineOf_eq hpos, Text.rowAt_eq_count, Nat.add_comm]
  case holds => exact fun pos hpos => ⟨lineStart_lineOf_le text pos, lt_lineEnd_lineOf hpos⟩
  case beyond => exact fun line hline => ⟨lineStart_of_length_lt hline, lineStart_of_length_lt (Nat.lt_succ_of_lt hline)⟩
  case behind => exact fun pos hpos => lineOf_of_byteLen_le hpos

-- A newline at the end of a text opens no further line.
example : (ofText ['a', '\n']).lineOf 2 = 1 := by decide

end LineTable
end Chunkwise
