import Chunkwise.Proofs.Text.Lines

/-!
# What stands on a line

A line of a text is the slice between its start and its end (`slice?_lineText`), and unless it is the last one it ends
with a newline (`exists_line`). Reading on behind a line therefore adds nothing to its indentation
(`indentation_append_of_newline`), and what is not blank on a line has a position there (`exists_ink`).
-/

namespace Chunkwise
namespace Text

variable {s line after : Text} {c : Char}

theorem pieces_newline (s : Text) : pieces ('\n' :: s) = ['\n'] :: pieces s := by
  rw [pieces, if_pos rfl]

/-- A character that is no newline joins the first line. -/
theorem pieces_cons (hc : c ≠ '\n') (s : Text) :
    (pieces (c :: s))[0]? = some (c :: (pieces s)[0]?.getD []) ∧
      ∀ row, (pieces (c :: s))[row + 1]? = (pieces s)[row + 1]? := by
  rw [pieces, if_neg hc]
  cases pieces s with
  | nil => exact ⟨rfl, fun _ => rfl⟩
  | cons p ps => exact ⟨rfl, fun _ => rfl⟩

/-- The lines cut a text where they start and end. -/
theorem exists_piece (p : Nat) (s : Text) (row : Nat) : ∃ before after,
    s = before ++ ((pieces s)[row]?.getD [] ++ after) ∧
      lineFrom p s row = p + byteLen before ∧
      lineFrom p s (row + 1) = p + byteLen before + byteLen ((pieces s)[row]?.getD []) ∧
      (after = [] ∨ ((pieces s)[row]?.getD []).getLast? = some '\n') := by
  induction s generalizing p row with
  | nil => exact ⟨[], [], rfl, by cases row <;> rfl, by cases row <;> rfl, Or.inl rfl⟩
  | cons c s ih =>
    by_cases hc : c = '\n'
    · subst hc
      have hsize : ('\n' : Char).utf8Size = 1 := rfl
      rw [pieces_newline]
      cases row with
      | zero => exact ⟨[], s, rfl, rfl, lineFrom_newline p s 0, Or.inr rfl⟩
      | succ row =>
        obtain ⟨before, after, hs, hstart, hstop, hlast⟩ := ih (p + 1) row
        rw [List.getElem?_cons_succ]
        refine ⟨'\n' :: before, after, by rw [List.cons_append, ← hs], ?_, ?_, hlast⟩
        · rw [lineFrom_newline, hstart, byteLen_cons]
          omega
        · rw [lineFrom_newline, hstop, byteLen_cons]
          omega
    · obtain ⟨hfirst, hlater⟩ := pieces_cons hc s
      cases row with
      | zero =>
        obtain ⟨before, after, hs, hstart, hstop, hlast⟩ := ih (p + c.utf8Size) 0
        have hbefore : before = [] := by
          cases before with
          | nil => rfl
          | cons d before =>
            have hd := d.utf8Size_pos
            rw [lineFrom_zero, byteLen_cons] at hstart
            omega
        subst hbefore
        rw [hfirst, Option.getD_some]
        refine ⟨[], after, congrArg (c :: ·) hs, rfl, ?_, ?_⟩
        · rw [lineFrom_cons hc, hstop, byteLen_nil, byteLen_cons]
          omega
        · refine hlast.imp_right fun hlast => ?_
          rw [List.getLast?_cons, hlast]
          rfl
      | succ row =>
        obtain ⟨before, after, hs, hstart, hstop, hlast⟩ := ih (p + c.utf8Size) (row + 1)
        rw [hlater]
        refine ⟨c :: before, after, by rw [List.cons_append, ← hs], ?_, ?_, hlast⟩
        · rw [lineFrom_cons hc, hstart, byteLen_cons, Nat.add_assoc]
        · rw [lineFrom_cons hc, hstop, byteLen_cons, Nat.add_assoc p]

/-- The indentation of a line does not depend on what follows its newline. -/
theorem indentation_append_of_newline (h : after = [] ∨ line.getLast? = some '\n') :
    indentation (line ++ after) = indentation line := by
  rcases h with rfl | hlast
  · rw [List.append_nil]
  · have hnewline : '\n' ∈ line := List.mem_of_getLast? hlast
    have hstop : ¬ (line.takeWhile isGap).length = line.length := by
      intro hlength
      have hall : (line.takeWhile isGap).all isGap := List.all_takeWhile
      rw [(List.takeWhile_prefix isGap).eq_of_length hlength] at hall
      exact absurd (List.all_eq_true.1 hall _ hnewline) (by decide)
    rw [indentation, indentation, List.takeWhile_append, if_neg hstop]

end Text

namespace LineTable

variable {text : Text} {line : Nat}

/-- A line cuts its text at its start and at its end. -/
theorem exists_line (text : Text) (hline : 0 < line) : ∃ before after,
    text = before ++ ((ofText text).lineText line ++ after) ∧
      (ofText text).lineStart line = Text.byteLen before ∧
      (ofText text).lineEnd line = Text.byteLen before + Text.byteLen ((ofText text).lineText line) ∧
      (after = [] ∨ ((ofText text).lineText line).getLast? = some '\n') := by
  obtain ⟨row, rfl⟩ := Nat.exists_eq_add_one_of_ne_zero (Nat.pos_iff_ne_zero.1 hline)
  obtain ⟨before, after, htext, hstart, hstop, hlast⟩ := Text.exists_piece 0 text row
  rw [Nat.zero_add] at hstart hstop
  refine ⟨before, after, htext, ?_, ?_, hlast⟩
  · rw [lineStart_succ, hstart]
  · rw [lineEnd_eq_lineStart_succ, lineStart_succ, hstop]
    rfl

/-- **A line is the slice between its start and its end.** -/
theorem slice?_lineText (text : Text) (hline : 0 < line) :
    text.slice? ⟨(ofText text).lineStart line, (ofText text).lineEnd line⟩ = some ((ofText text).lineText line) := by
  obtain ⟨before, after, htext, hstart, hstop, -⟩ := exists_line text hline
  rw [hstart, hstop]
  generalize (ofText text).lineText line = slice at htext
  rw [htext]
  exact Text.slice?_middle before slice after

/-- What is read from the start of a line on has the indentation of the line. -/
theorem indentation_lineStart (text : Text) (hline : 0 < line) :
    (text.dropBytes? ((ofText text).lineStart line)).map Text.indentation =
      some (Text.indentation ((ofText text).lineText line)) := by
  obtain ⟨before, after, htext, hstart, -, hlast⟩ := exists_line text hline
  rw [hstart]
  generalize (ofText text).lineText line = slice at htext hlast
  rw [htext, Text.dropBytes?_append, Option.map_some, Text.indentation_append_of_newline hlast]

/-- A line that is not blank has something on it. -/
theorem exists_ink (h : ¬ Text.isBlank ((ofText text).lineText line)) :
    ∃ i c, text[i]? = some c ∧ ¬ isBlankChar c ∧ (ofText text).lineStart line ≤ text.offset i ∧
      text.offset i < (ofText text).lineEnd line := by
  have hline : 0 < line := by
    rcases Nat.eq_zero_or_pos line with rfl | hpos
    · exact absurd rfl h
    · exact hpos
  obtain ⟨pos, c, hchar, hink, hcovers⟩ := Text.exists_ink_of_slice? (slice?_lineText text hline) h
  obtain ⟨i, rfl, hc⟩ := Text.charAt?_eq_some_iff.1 hchar
  simp only [Span.covers_iff] at hcovers
  exact ⟨i, c, hc, hink, hcovers⟩

end LineTable
end Chunkwise
