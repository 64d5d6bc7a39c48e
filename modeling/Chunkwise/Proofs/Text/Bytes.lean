import Chunkwise.Proofs.Text.LineText
import Chunkwise.Proofs.Text.Newlines

/-!
# The line of a byte

Every byte of a text belongs to one of its characters (`exists_char_of_lt`), so that its row is the number of newlines
in front of that character (`rowAt_inside`). The line of that row, and no other, holds the byte (`owns_iff`), and it is
the one that the table of lines gives (`LineTable.lineOf_eq`). A text has one line more than it has newlines in front
of its last character (`length_pieces`).
-/

namespace Chunkwise
namespace Text

variable {text s before after piece : Text} {pieces' : List Text} {c : Char} {pos k line : Nat}

/-- Whether a byte belongs to a line, by the number of the line. -/
def Owns (text : Text) (line pos : Nat) : Prop :=
  ∃ row start piece, line = row + 1 ∧ text.locatedLines[row]? = some (start, piece) ∧ start ≤ pos ∧
    pos < start + byteLen piece

/-! ## The character of a byte -/

theorem exists_char_of_lt (h : pos < byteLen text) :
    ∃ before c after k, text = before ++ c :: after ∧ k < c.utf8Size ∧ pos = byteLen before + k := by
  induction text generalizing pos with
  | nil => exact absurd h (Nat.not_lt_zero _)
  | cons c text ih =>
    by_cases hc : pos < c.utf8Size
    · exact ⟨[], c, text, pos, rfl, hc, by simp⟩
    · have hrest : pos - c.utf8Size < byteLen text := by
        rw [byteLen_cons] at h
        omega
      obtain ⟨before, d, after, k, rfl, hk, hpos⟩ := ih hrest
      refine ⟨c :: before, d, after, k, rfl, hk, ?_⟩
      rw [byteLen_cons]
      omega

/-- A newline has one byte, so that none begins in front of a byte of the same character. -/
theorem rowAt_inside (before after : Text) (hk : k < c.utf8Size) :
    rowAt (before ++ c :: after) (byteLen before + k) = before.count '\n' := by
  induction before with
  | nil =>
    rw [List.nil_append, byteLen_nil, Nat.zero_add, rowAt]
    split
    · rfl
    · have hnewline : c ≠ '\n' := by
        rintro rfl
        have hsize : ('\n' : Char).utf8Size = 1 := rfl
        omega
      have hzero : k - c.utf8Size = 0 := by omega
      rw [if_neg hnewline, hzero]
      cases after <;> rfl
  | cons d before ih =>
    have hd := d.utf8Size_pos
    have hskip : byteLen (d :: before) + k - d.utf8Size = byteLen before + k := by
      rw [byteLen_cons]
      omega
    rw [List.cons_append, rowAt, if_neg (by rw [byteLen_cons]; omega), hskip, ih, List.count_cons]
    simp only [beq_iff_eq]
    omega

theorem rowAt_succ_le (text : Text) (pos : Nat) : text.rowAt (pos + 1) ≤ text.rowAt pos + 1 := by
  rw [rowAt_eq_count, rowAt_eq_count, List.take_add_one, List.count_append]
  exact Nat.add_le_add_left (Nat.le_trans List.count_le_length Option.length_toList_le) _

/-- Between two offsets all rows between theirs are met. -/
theorem exists_rowAt {first last row : Nat} (hle : first ≤ last) (hfirst : text.rowAt first ≤ row)
    (hlast : row ≤ text.rowAt last) : ∃ pos, first ≤ pos ∧ pos ≤ last ∧ text.rowAt pos = row := by
  obtain ⟨n, rfl⟩ := Nat.exists_eq_add_of_le hle
  induction n with
  | zero => exact ⟨first, Nat.le_refl _, Nat.le_refl _, Nat.le_antisymm hfirst hlast⟩
  | succ n ih =>
    have hstep := rowAt_succ_le text (first + n)
    by_cases hrow : row ≤ text.rowAt (first + n)
    · obtain ⟨pos, hpos, hbound, heq⟩ := ih (Nat.le_add_right _ _) hrow
      exact ⟨pos, hpos, by omega, heq⟩
    · rw [← Nat.add_assoc] at hlast ⊢
      exact ⟨first + n + 1, by omega, Nat.le_refl _, by omega⟩

/-- From the start of a slice to its last byte the newlines of the slice are passed, but for one at its end. -/
theorem rowAt_last_of_slice? {span : Span} {slice : Text} (h : text.slice? span = some slice) (hne : slice ≠ []) :
    text.rowAt (span.stop - 1) = text.rowAt span.start + slice.dropLast.count '\n' := by
  obtain ⟨before, after, rfl, rfl⟩ := exists_append_of_slice? h
  rcases List.eq_nil_or_concat slice with rfl | ⟨init, c, rfl⟩
  · exact absurd rfl hne
  · have hc := c.utf8Size_pos
    have htext : before ++ (init ++ [c] ++ after) = before ++ init ++ c :: after := by simp
    have hlast : byteLen before + byteLen (init ++ [c]) - 1 = byteLen (before ++ init) + (c.utf8Size - 1) := by
      rw [byteLen_append, byteLen_append, byteLen_cons, byteLen_nil]
      omega
    have hrow := rowAt_inside (before ++ init) after (show c.utf8Size - 1 < c.utf8Size by omega)
    rw [List.concat_eq_append, rowAt_append, List.dropLast_concat, hlast, htext, hrow, List.count_append]

/-! ## The starts of lines -/

/-- The lines that start no later than a byte, the first one apart, are as many as the newlines in front of it. -/
theorem countP_startsFrom {n : Nat} (p : Nat) (h : n < byteLen s) :
    (startsFrom p s).countP (fun start => decide (start ≤ p + n)) = rowAt s n := by
  induction s generalizing p n with
  | nil => exact absurd h (Nat.not_lt_zero _)
  | cons c s ih =>
    have hc := c.utf8Size_pos
    rw [byteLen_cons] at h
    by_cases hn : n < c.utf8Size
    · have hrow : rowAt (c :: s) n = 0 := by simpa using rowAt_inside [] s hn
      rw [hrow, List.countP_eq_zero]
      intro start hstart
      have hbehind : p + c.utf8Size ≤ start := by
        rw [startsFrom] at hstart
        split at hstart
        · rcases List.mem_cons.1 hstart with rfl | hstart
          · exact Nat.le_refl _
          · exact Nat.le_of_lt (startsFrom_pos hstart)
        · exact Nat.le_of_lt (startsFrom_pos hstart)
      rw [decide_eq_true_eq]
      omega
    · have hrest := ih (p + c.utf8Size) (show n - c.utf8Size < byteLen s by omega)
      have hsum : p + c.utf8Size + (n - c.utf8Size) = p + n := by omega
      have hne : s ≠ [] := by
        rintro rfl
        simp at h
        omega
      have hpos : n ≠ 0 := by omega
      rw [hsum] at hrest
      rw [rowAt, if_neg hpos]
      by_cases hnewline : c = '\n'
      · have hle : p + c.utf8Size ≤ p + n := by omega
        rw [startsFrom, if_pos (by simp [hnewline, hne]), if_pos hnewline, List.countP_cons, hrest,
          if_pos (decide_eq_true hle), Nat.add_comm]
      · rw [startsFrom, if_neg (by simp [hnewline]), if_neg hnewline, hrest, Nat.zero_add]

/-- Every newline that is not the last character of a text begins one of the lines after the first. -/
theorem length_startsFrom (p : Nat) (s : Text) : (startsFrom p s).length = s.dropLast.count '\n' := by
  induction s generalizing p with
  | nil => rfl
  | cons c s ih =>
    rw [startsFrom]
    by_cases hs : s = []
    · subst hs
      rw [if_neg (by simp)]
      rfl
    · rw [List.dropLast_cons_of_ne_nil hs]
      by_cases hc : c = '\n'
      · rw [if_pos (by simp [hc, hs]), List.length_cons, ih, hc, List.count_cons_self]
      · rw [if_neg (by simp [hc]), ih, List.count_cons_of_ne hc]

/-! ## The lines themselves -/

theorem pieces_ne_nil (h : s ≠ []) : pieces s ≠ [] := by
  intro hnil
  have hflatten := flatten_pieces s
  rw [hnil] at hflatten
  exact h hflatten.symm

theorem pieces_join (hc : c ≠ '\n') (h : pieces s = piece :: pieces') : pieces (c :: s) = (c :: piece) :: pieces' := by
  rw [pieces, if_neg hc, h]

/-- Every newline that is not the last character of a text begins a line. -/
theorem length_pieces (h : s ≠ []) : (pieces s).length = s.dropLast.count '\n' + 1 := by
  induction s with
  | nil => exact absurd rfl h
  | cons c s ih =>
    by_cases hs : s = []
    · subst hs
      by_cases hc : c = '\n' <;> simp [pieces, hc]
    · rw [List.dropLast_cons_of_ne_nil hs]
      by_cases hc : c = '\n'
      · subst hc
        rw [pieces_newline, List.length_cons, ih hs, List.count_cons_self]
      · obtain ⟨piece, pieces', hpieces⟩ := List.exists_cons_of_ne_nil (pieces_ne_nil hs)
        have hlength := ih hs
        rw [hpieces, List.length_cons] at hlength
        rw [pieces_join hc hpieces, List.length_cons, List.count_cons_of_ne hc, hlength]

/-- The line with the row of a character holds it. -/
theorem exists_located (p : Nat) (before : Text) (c : Char) (after : Text) : ∃ start piece,
    (locate p (pieces (before ++ c :: after)))[before.count '\n']? = some (start, piece) ∧ start ≤ p + byteLen before ∧
      p + byteLen before + c.utf8Size ≤ start + byteLen piece := by
  induction before generalizing p with
  | nil =>
    by_cases hc : c = '\n'
    · subst hc
      exact ⟨p, ['\n'], by rw [List.nil_append, pieces_newline]; rfl, by simp, by simp⟩
    · rw [List.nil_append]
      cases hpieces : pieces after with
      | nil => exact ⟨p, [c], by rw [pieces, if_neg hc, hpieces]; rfl, by simp, by simp⟩
      | cons piece rest =>
        refine ⟨p, c :: piece, by rw [pieces_join hc hpieces]; rfl, by simp, ?_⟩
        simp only [byteLen_nil, byteLen_cons]
        omega
  | cons b before ih =>
    obtain ⟨start, piece, hget, hstart, hstop⟩ := ih (p + b.utf8Size)
    rw [List.cons_append]
    by_cases hb : b = '\n'
    · subst hb
      refine ⟨start, piece, ?_, ?_, ?_⟩
      · rw [pieces_newline, List.count_cons_self]
        exact hget
      · rw [byteLen_cons]
        omega
      · rw [byteLen_cons]
        omega
    · obtain ⟨first, rest, hpieces⟩ := List.exists_cons_of_ne_nil (pieces_ne_nil (s := before ++ c :: after) (by simp))
      rw [pieces_join hb hpieces, List.count_cons_of_ne hb]
      rw [hpieces] at hget
      -- The character joins the first line, which begins with it, and moves no other one.
      cases hrow : before.count '\n' with
      | zero =>
        rw [hrow] at hget
        simp only [locate, List.getElem?_cons_zero, Option.some.injEq, Prod.mk.injEq] at hget
        obtain ⟨rfl, rfl⟩ := hget
        refine ⟨p, b :: first, rfl, by omega, ?_⟩
        simp only [byteLen_cons]
        omega
      | succ row =>
        rw [hrow] at hget
        refine ⟨start, piece, ?_, ?_, ?_⟩
        · rw [locate, List.getElem?_cons_succ] at hget ⊢
          rw [byteLen_cons, ← Nat.add_assoc]
          exact hget
        · rw [byteLen_cons]
          omega
        · rw [byteLen_cons]
          omega

/-- A line ends before those below it start. -/
theorem located_le {row row' start start' : Nat} {piece piece' : Text} (hlt : row < row')
    (h : text.locatedLines[row]? = some (start, piece)) (h' : text.locatedLines[row']? = some (start', piece')) :
    start + byteLen piece ≤ start' := by
  obtain ⟨hrow, hget⟩ := List.getElem?_eq_some_iff.1 h
  obtain ⟨hrow', hget'⟩ := List.getElem?_eq_some_iff.1 h'
  have horder : text.locatedLines.Pairwise fun a b => a.1 + a.2.byteLen ≤ b.1 := pairwise_locate 0 (pieces text)
  have hle := List.pairwise_iff_getElem.1 horder row row' hrow hrow' hlt
  rwa [hget, hget'] at hle

/-- **A byte belongs to the line of its row**, and to no other. -/
theorem owns_iff (h : pos < byteLen text) : text.Owns line pos ↔ line = text.rowAt pos + 1 := by
  obtain ⟨before, c, after, k, rfl, hk, rfl⟩ := exists_char_of_lt h
  obtain ⟨start, piece, hget, hstart, hstop⟩ := exists_located 0 before c after
  rw [rowAt_inside before after hk]
  rw [Nat.zero_add] at hstart hstop
  constructor
  · rintro ⟨row, start', piece', rfl, hget', hstart', hstop'⟩
    rcases Nat.lt_trichotomy row (before.count '\n') with hless | heq | hless
    · have hle := located_le hless hget' hget
      omega
    · rw [heq]
    · have hle := located_le hless hget hget'
      omega
  · rintro rfl
    exact ⟨_, start, piece, rfl, hget, by omega, by omega⟩

end Text

/-- **The table of lines knows the line of every byte.** -/
theorem LineTable.lineOf_eq {text : Text} {pos : Nat} (h : pos < text.byteLen) :
    (ofText text).lineOf pos = text.rowAt pos + 1 := by
  have hcount := Text.countP_startsFrom 0 h
  rw [Nat.zero_add] at hcount
  rw [lineOf, starts, List.countP_cons, if_pos (by simp)]
  exact congrArg (· + 1) hcount

end Chunkwise
