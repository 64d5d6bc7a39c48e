import Chunkwise.Proofs.Text.Scan

/-!
# Where lines start

The starts of the lines of a text are in order (`pairwise_starts`), and each is the start of the text or stands behind
a newline (`IsLineStart`). Later lines start later (`lineStart_le_lineStart`, `lineStart_lt_lineStart`). The row of a
position is the number of newlines before it (`rowAt_append`), and the line of that row holds the position
(`lineStart_row_le`, `le_lineEnd_row`); a position at column 0 is the start of its line (`lineStart_row_of_column`).
-/

namespace Chunkwise

/-- Whether a line starts at a position: the start of the text does, and what stands behind a newline. -/
def Text.IsLineStart (text : Text) (pos : Nat) : Prop :=
  pos = 0 ∨ ∃ before after, text = before ++ after ∧ before.getLast? = some '\n' ∧ pos = Text.byteLen before

namespace Text

variable {text s before after : Text} {pos n first : Nat}

/-! ## The starts of lines -/

theorem exists_append_of_mem_startsFrom (h : n ∈ startsFrom pos s) :
    ∃ before after, s = before ++ after ∧ before.getLast? = some '\n' ∧ n = pos + byteLen before := by
  induction s generalizing pos with
  | nil => cases h
  | cons c s ih =>
    have hlater : n ∈ startsFrom (pos + c.utf8Size) s →
        ∃ before after, c :: s = before ++ after ∧ before.getLast? = some '\n' ∧ n = pos + byteLen before := by
      intro h
      obtain ⟨before, after, rfl, hlast, rfl⟩ := ih h
      refine ⟨c :: before, after, rfl, ?_, by rw [byteLen_cons, Nat.add_assoc]⟩
      rw [List.getLast?_cons, hlast]
      rfl
    rw [startsFrom] at h
    split at h
    · rename_i hc
      simp only [Bool.and_eq_true, decide_eq_true_eq] at hc
      rcases List.mem_cons.1 h with rfl | h
      · exact ⟨[c], s, rfl, by rw [hc.1]; rfl, by rw [byteLen_cons, byteLen_nil, Nat.add_zero]⟩
      · exact hlater h
    · exact hlater h

theorem isLineStart_of_mem_starts (h : n ∈ (LineTable.ofText text).starts) : text.IsLineStart n := by
  rcases List.mem_cons.1 h with rfl | h
  · exact Or.inl rfl
  · obtain ⟨before, after, heq, hlast, hn⟩ := exists_append_of_mem_startsFrom h
    exact Or.inr ⟨before, after, heq, hlast, by rw [hn, Nat.zero_add]⟩

theorem pairwise_startsFrom (pos : Nat) (s : Text) : (startsFrom pos s).Pairwise (· < ·) := by
  induction s generalizing pos with
  | nil => exact List.Pairwise.nil
  | cons c s ih =>
    rw [startsFrom]
    split
    · exact List.pairwise_cons.2 ⟨fun _ hn => startsFrom_pos hn, ih _⟩
    · exact ih _

end Text

namespace LineTable

variable {text : Text} {a b pos : Nat}

theorem pairwise_starts (text : Text) : (ofText text).starts.Pairwise (· < ·) :=
  List.pairwise_cons.2 ⟨fun _ hn => Text.startsFrom_pos hn, Text.pairwise_startsFrom 0 text⟩

theorem lineStart_le_size (text : Text) (line : Nat) : (ofText text).lineStart line ≤ Text.byteLen text :=
  Text.le_byteLen_of_isBoundary (Text.isBoundary_lineStart text line)

/-- A later line that is there starts later. -/
theorem lineStart_lt_lineStart (ha : 0 < a) (hab : a < b) (hb : (ofText text).lineStart b < Text.byteLen text) :
    (ofText text).lineStart a < (ofText text).lineStart b := by
  obtain ⟨a, rfl⟩ := Nat.exists_eq_add_one_of_ne_zero (Nat.pos_iff_ne_zero.1 ha)
  obtain ⟨b, rfl⟩ := Nat.exists_eq_add_one_of_ne_zero (show b ≠ 0 by omega)
  simp only [lineStart] at hb ⊢
  cases hget : (ofText text).starts[b]? with
  | none =>
    rw [hget] at hb
    exact absurd hb (Nat.lt_irrefl _)
  | some start =>
    obtain ⟨hlt, hstart⟩ := List.getElem?_eq_some_iff.1 hget
    have hlt' : a < (ofText text).starts.length := by omega
    rw [List.getElem?_eq_getElem hlt', Option.getD_some, Option.getD_some, ← hstart]
    exact List.pairwise_iff_getElem.1 (pairwise_starts text) a b hlt' hlt (by omega)

/-- Later lines do not start earlier. -/
theorem lineStart_le_lineStart (ha : 0 < a) (hab : a ≤ b) :
    (ofText text).lineStart a ≤ (ofText text).lineStart b := by
  rcases Nat.lt_or_ge ((ofText text).lineStart b) (Text.byteLen text) with hb | hb
  · rcases Nat.lt_or_eq_of_le hab with hab | rfl
    · exact Nat.le_of_lt (lineStart_lt_lineStart ha hab hb)
    · exact Nat.le_refl _
  · exact Nat.le_trans (lineStart_le_size text a) hb

/-- A line ends before the lines below it start. -/
theorem lineEnd_le_lineStart (h : a < b) : (ofText text).lineEnd a ≤ (ofText text).lineStart b := by
  rw [lineEnd_eq_lineStart_succ]
  exact lineStart_le_lineStart (Nat.succ_pos a) h

/-- What starts inside the text and is the start of a line starts a line. -/
theorem isLineStart_lineStart {line : Nat} (h : (ofText text).lineStart line < Text.byteLen text) :
    text.IsLineStart ((ofText text).lineStart line) := by
  cases line with
  | zero => exact absurd h (Nat.lt_irrefl _)
  | succ i =>
    simp only [lineStart] at h ⊢
    cases hget : (ofText text).starts[i]? with
    | none =>
      rw [hget] at h
      exact absurd h (Nat.lt_irrefl _)
    | some start => exact Text.isLineStart_of_mem_starts (List.mem_of_getElem? hget)

end LineTable

/-! ## Rows -/

namespace Text

variable {before after s : Text} {k p col : Nat} {c : Char}

/-- The row of a position is the number of newlines before it. -/
theorem rowAt_append (before after : Text) : rowAt (before ++ after) (byteLen before) = before.count '\n' := by
  induction before with
  | nil => cases after <;> rfl
  | cons c before ih =>
    have hc := c.utf8Size_pos
    rw [List.cons_append, rowAt, byteLen_cons, if_neg (by omega), Nat.add_sub_cancel_left, ih, List.count_cons]
    simp only [beq_iff_eq]
    omega

/-- A later offset is not on an earlier row. -/
theorem rowAt_le_rowAt {m n : Nat} (text : Text) (h : m ≤ n) : text.rowAt m ≤ text.rowAt n := by
  induction text generalizing m n with
  | nil => exact Nat.le_refl _
  | cons c text ih =>
    have hrest := ih (Nat.sub_le_sub_right h c.utf8Size)
    rcases Nat.eq_zero_or_pos m with rfl | hm
    · exact Nat.zero_le _
    · rw [rowAt, rowAt, if_neg (Nat.ne_of_gt hm), if_neg (Nat.ne_of_gt (Nat.lt_of_lt_of_le hm h))]
      exact Nat.add_le_add_left hrest _

/-- Where the line of a row starts in a text that begins at an offset; the end of the text if it has no such row. -/
def lineFrom (p : Nat) (s : Text) (row : Nat) : Nat := (p :: startsFrom p s)[row]?.getD (p + byteLen s)

@[simp] theorem lineFrom_zero (p : Nat) (s : Text) : lineFrom p s 0 = p := rfl

theorem lineFrom_newline (p : Nat) (s : Text) (k : Nat) : lineFrom p ('\n' :: s) (k + 1) = lineFrom (p + 1) s k := by
  have hsize : ('\n' : Char).utf8Size = 1 := rfl
  cases s with
  | nil => cases k <;> rfl
  | cons c s => simp [lineFrom, startsFrom, hsize, Nat.add_assoc]

theorem lineFrom_cons (hc : c ≠ '\n') (p : Nat) (s : Text) (k : Nat) :
    lineFrom p (c :: s) (k + 1) = lineFrom (p + c.utf8Size) s (k + 1) := by
  simp [lineFrom, startsFrom, hc, Nat.add_assoc]

/-- The line of a position starts before it or at it. -/
theorem lineFrom_row_le (p : Nat) (before after : Text) :
    lineFrom p (before ++ after) (before.count '\n') ≤ p + byteLen before := by
  induction before generalizing p with
  | nil => exact Nat.le_refl _
  | cons c before ih =>
    rw [List.cons_append, byteLen_cons, ← Nat.add_assoc]
    rcases Decidable.em (c = '\n') with rfl | hc
    · rw [List.count_cons_self, lineFrom_newline]
      exact ih (p + 1)
    · rw [List.count_cons_of_ne hc]
      cases hk : before.count '\n' with
      | zero =>
        rw [lineFrom_zero]
        omega
      | succ k =>
        have hle := ih (p + c.utf8Size)
        rw [hk] at hle
        rwa [lineFrom_cons hc]

/-- The line below that of a position starts behind it or at it. -/
theorem le_lineFrom_row_succ (p : Nat) (before after : Text) :
    p + byteLen before ≤ lineFrom p (before ++ after) (before.count '\n' + 1) := by
  induction before generalizing p with
  | nil =>
    rw [List.nil_append, List.count_nil, lineFrom, List.getElem?_cons_succ]
    cases hget : (startsFrom p after)[0]? with
    | none => exact Nat.le_add_right _ _
    | some start => exact Nat.le_of_lt (startsFrom_pos (List.mem_of_getElem? hget))
  | cons c before ih =>
    rw [List.cons_append, byteLen_cons, ← Nat.add_assoc]
    rcases Decidable.em (c = '\n') with rfl | hc
    · rw [List.count_cons_self, lineFrom_newline]
      exact ih (p + 1)
    · rw [List.count_cons_of_ne hc, lineFrom_cons hc]
      exact ih (p + c.utf8Size)

/-- The line below that of a position that is not the end of the text starts behind it. -/
theorem lt_lineFrom_row_succ (p : Nat) (before : Text) (c : Char) (after : Text) :
    p + byteLen before < lineFrom p (before ++ c :: after) (before.count '\n' + 1) := by
  induction before generalizing p with
  | nil =>
    have hsize := c.utf8Size_pos
    have hnext := le_lineFrom_row_succ (p + c.utf8Size) [] after
    rw [List.nil_append, List.count_nil, byteLen_nil]
    rcases Decidable.em (c = '\n') with rfl | hc
    · rw [lineFrom_newline, lineFrom_zero]
      exact Nat.lt_succ_self p
    · rw [lineFrom_cons hc]
      exact Nat.lt_of_lt_of_le (Nat.lt_add_of_pos_right hsize) hnext
  | cons b before ih =>
    rw [List.cons_append, byteLen_cons, ← Nat.add_assoc]
    rcases Decidable.em (b = '\n') with rfl | hb
    · rw [List.count_cons_self, lineFrom_newline]
      exact ih (p + 1)
    · rw [List.count_cons_of_ne hb, lineFrom_cons hb]
      exact ih (p + b.utf8Size)

/-- What has column 0 starts a line. The induction carries a column for the start of the text, behind which there is
a newline unless the column is 0. -/
theorem lineFrom_row_of_column (p col : Nat) (before after : Text)
    (h : columnFrom col (before ++ after) (byteLen before) = 0) :
    lineFrom p (before ++ after) (before.count '\n') = p + byteLen before ∧ (0 < col → 0 < before.count '\n') := by
  induction before generalizing p col with
  | nil =>
    have hcol : col = 0 := by cases after <;> exact h
    exact ⟨rfl, fun hpos => absurd hcol (Nat.ne_of_gt hpos)⟩
  | cons c before ih =>
    have hsize := c.utf8Size_pos
    rw [List.cons_append, byteLen_cons, columnFrom, if_neg (by omega), Nat.add_sub_cancel_left] at h
    rw [List.cons_append, byteLen_cons, ← Nat.add_assoc]
    rcases Decidable.em (c = '\n') with rfl | hc
    · rw [if_pos rfl] at h
      rw [List.count_cons_self, lineFrom_newline]
      exact ⟨(ih (p + 1) 0 h).1, fun _ => Nat.succ_pos _⟩
    · rw [if_neg hc] at h
      obtain ⟨hline, hpos⟩ := ih (p + c.utf8Size) _ h
      rw [List.count_cons_of_ne hc]
      obtain ⟨k, hk⟩ := Nat.exists_eq_add_one_of_ne_zero (Nat.pos_iff_ne_zero.1 (hpos (by omega)))
      rw [hk] at hline ⊢
      exact ⟨by rw [lineFrom_cons hc, hline], fun _ => Nat.succ_pos _⟩

end Text

namespace LineTable

variable {text : Text} {pos : Nat}

theorem lineStart_succ (text : Text) (row : Nat) : (ofText text).lineStart (row + 1) = Text.lineFrom 0 text row := by
  rw [Text.lineFrom, Nat.zero_add]
  rfl

/-- The line of a position starts before it or at it. -/
theorem lineStart_row_le (h : text.isBoundary pos) : (ofText text).lineStart (text.rowAt pos + 1) ≤ pos := by
  obtain ⟨after, hafter⟩ := Option.isSome_iff_exists.1 h
  obtain ⟨before, rfl, rfl⟩ := Text.exists_append_of_dropBytes? hafter
  rw [lineStart_succ, Text.rowAt_append]
  simpa using Text.lineFrom_row_le 0 before after

/-- The line of a position ends behind it or at it. -/
theorem le_lineEnd_row (h : text.isBoundary pos) : pos ≤ (ofText text).lineEnd (text.rowAt pos + 1) := by
  obtain ⟨after, hafter⟩ := Option.isSome_iff_exists.1 h
  obtain ⟨before, rfl, rfl⟩ := Text.exists_append_of_dropBytes? hafter
  rw [lineEnd_eq_lineStart_succ, lineStart_succ, Text.rowAt_append]
  simpa using Text.le_lineFrom_row_succ 0 before after

/-- The line of a position before the end of the text ends behind it. -/
theorem lt_lineEnd_row (h : text.isBoundary pos) (hlt : pos < Text.byteLen text) :
    pos < (ofText text).lineEnd (text.rowAt pos + 1) := by
  obtain ⟨after, hafter⟩ := Option.isSome_iff_exists.1 h
  obtain ⟨before, rfl, rfl⟩ := Text.exists_append_of_dropBytes? hafter
  rw [lineEnd_eq_lineStart_succ, lineStart_succ, Text.rowAt_append]
  cases after with
  | nil =>
    rw [List.append_nil] at hlt
    exact absurd hlt (Nat.lt_irrefl _)
  | cons c after => simpa using Text.lt_lineFrom_row_succ 0 before c after

/-- A position with column 0 starts its line. -/
theorem lineStart_row_of_column (h : text.isBoundary pos) (hcolumn : text.columnAt pos = 0) :
    (ofText text).lineStart (text.rowAt pos + 1) = pos := by
  obtain ⟨after, hafter⟩ := Option.isSome_iff_exists.1 h
  obtain ⟨before, rfl, rfl⟩ := Text.exists_append_of_dropBytes? hafter
  rw [lineStart_succ, Text.rowAt_append]
  simpa using (Text.lineFrom_row_of_column 0 0 before after hcolumn).1

end LineTable
end Chunkwise
