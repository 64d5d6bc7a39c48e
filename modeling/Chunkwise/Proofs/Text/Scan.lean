import Chunkwise.Proofs.Text.Position
import Chunkwise.Text.Line

/-!
# Positions that a scan finds

A scan carries an offset along with what is left of a text. `Ahead pos s n` says that `n` is the offset a scan has
when it has passed some characters of `s` from the offset `pos` on; from the start of a text on these are its
positions (`Ahead.isBoundary`). The starts and ends of lines are found in this way (`isBoundary_lineStart`,
`isBoundary_lineEnd`, `isBoundary_of_mem_locatedLines`).
-/

namespace Chunkwise
namespace Text

variable {text s : Text} {pos n : Nat} {c : Char}

/-- An offset behind some of the characters of a text that begins at an offset. -/
def Ahead (pos : Nat) (s : Text) (n : Nat) : Prop := ∃ before after, s = before ++ after ∧ n = pos + byteLen before

theorem Ahead.here (pos : Nat) (s : Text) : Ahead pos s pos := ⟨[], s, rfl, rfl⟩

theorem Ahead.all (pos : Nat) (s : Text) : Ahead pos s (pos + byteLen s) := ⟨s, [], by simp, rfl⟩

/-- What is ahead behind a piece of a text is ahead before it. -/
theorem Ahead.append {p : Text} (h : Ahead (pos + byteLen p) s n) : Ahead pos (p ++ s) n := by
  obtain ⟨before, after, rfl, rfl⟩ := h
  exact ⟨p ++ before, after, by simp, by rw [byteLen_append, Nat.add_assoc]⟩

theorem Ahead.cons (h : Ahead (pos + c.utf8Size) s n) : Ahead pos (c :: s) n :=
  Ahead.append (p := [c]) (by rwa [byteLen_cons, byteLen_nil, Nat.add_zero])

theorem Ahead.left {s' : Text} (h : Ahead pos s n) : Ahead pos (s ++ s') n := by
  obtain ⟨before, after, rfl, rfl⟩ := h
  exact ⟨before, after ++ s', by simp, rfl⟩

/-- What is ahead of the start of a text is one of its positions. -/
theorem Ahead.isBoundary (h : Ahead 0 text n) : text.isBoundary n := by
  obtain ⟨before, after, rfl, rfl⟩ := h
  rw [Nat.zero_add]
  exact isBoundary_append before after

/-! ## Lines -/

theorem ahead_of_mem_startsFrom (h : n ∈ startsFrom pos s) : Ahead pos s n := by
  induction s generalizing pos with
  | nil => cases h
  | cons c s ih =>
    unfold startsFrom at h
    split at h
    · rcases List.mem_cons.1 h with rfl | h
      · exact (Ahead.here _ _).cons
      · exact (ih h).cons
    · exact (ih h).cons

/-- What stands before and behind a located piece. -/
theorem exists_append_of_mem_locate {lines : List Text} {pos start : Nat} {line : Text}
    (h : (start, line) ∈ locate pos lines) :
    ∃ before after, lines.flatten = before ++ (line ++ after) ∧ start = pos + byteLen before := by
  induction lines generalizing pos with
  | nil => cases h
  | cons first lines ih =>
    rw [locate] at h
    rw [List.flatten_cons]
    rcases List.mem_cons.1 h with heq | h
    · obtain ⟨rfl, rfl⟩ := Prod.mk.inj heq
      exact ⟨[], lines.flatten, rfl, rfl⟩
    · obtain ⟨before, after, hflatten, hstart⟩ := ih h
      refine ⟨first ++ before, after, by rw [hflatten, List.append_assoc], ?_⟩
      rw [hstart, byteLen_append, Nat.add_assoc]

theorem map_snd_locate (pos : Nat) (lines : List Text) : (locate pos lines).map Prod.snd = lines := by
  induction lines generalizing pos with
  | nil => rfl
  | cons line lines ih => rw [locate, List.map_cons, ih]

/-- The last piece ends where all of them end. -/
theorem stop_of_getLast?_locate {lines : List Text} {l : Nat × Text} (h : (locate pos lines).getLast? = some l) :
    l.1 + l.2.byteLen = pos + byteLen lines.flatten := by
  induction lines generalizing pos with
  | nil => cases h
  | cons line lines ih =>
    rw [locate] at h
    rw [List.flatten_cons, byteLen_append, ← Nat.add_assoc]
    cases lines with
    | nil =>
      cases h
      rfl
    | cons next lines =>
      rw [locate, List.getLast?_cons_cons, ← locate] at h
      exact ih h

theorem pairwise_locate (pos : Nat) (lines : List Text) :
    (locate pos lines).Pairwise fun a b => a.1 + a.2.byteLen ≤ b.1 := by
  induction lines generalizing pos with
  | nil => exact List.Pairwise.nil
  | cons line lines ih =>
    refine List.pairwise_cons.2 ⟨fun l hl => ?_, ih _⟩
    obtain ⟨before, after, -, hstart⟩ := exists_append_of_mem_locate hl
    rw [hstart]
    exact Nat.le_add_right _ _

/-- The ends of a piece stand ahead of the start of all pieces. -/
theorem ahead_of_mem_locate {pieces : List Text} {line : Text} (h : (n, line) ∈ locate pos pieces) :
    Ahead pos pieces.flatten n ∧ Ahead pos pieces.flatten (n + byteLen line) := by
  obtain ⟨before, after, hflatten, hstart⟩ := exists_append_of_mem_locate h
  refine ⟨⟨before, line ++ after, hflatten, hstart⟩, before ++ line, after, ?_, ?_⟩
  · rw [hflatten, List.append_assoc]
  · rw [hstart, byteLen_append, Nat.add_assoc]

/-- No line is empty. -/
theorem ne_nil_of_mem_pieces {piece : Text} (h : piece ∈ pieces text) : piece ≠ [] := by
  induction text generalizing piece with
  | nil => cases h
  | cons c text ih =>
    rw [pieces] at h
    split at h
    · rcases List.mem_cons.1 h with rfl | h
      · exact List.cons_ne_nil _ _
      · exact ih h
    · split at h
      · rw [List.mem_singleton.1 h]
        exact List.cons_ne_nil _ _
      · rename_i first rest hpieces
        rcases List.mem_cons.1 h with rfl | h
        · exact List.cons_ne_nil _ _
        · refine ih ?_
          rw [hpieces]
          exact List.mem_cons_of_mem _ h

theorem isBoundary_of_mem_locatedLines {line : Text} (h : (n, line) ∈ text.locatedLines) :
    text.isBoundary n ∧ text.isBoundary (n + byteLen line) := by
  have hahead := ahead_of_mem_locate h
  rw [flatten_pieces] at hahead
  exact ⟨hahead.1.isBoundary, hahead.2.isBoundary⟩

/-- A line is a slice of its text. -/
theorem slice?_of_mem_locatedLines {start : Nat} {line : Text} (h : (start, line) ∈ text.locatedLines) :
    text.slice? ⟨start, start + line.byteLen⟩ = some line := by
  obtain ⟨before, after, hflatten, hstart⟩ := exists_append_of_mem_locate h
  rw [flatten_pieces] at hflatten
  rw [Nat.zero_add] at hstart
  rw [hflatten, hstart]
  exact slice?_middle before line after

theorem isBoundary_of_mem_interior (h : n ∈ (LineTable.ofText text).interior) : text.isBoundary n :=
  (ahead_of_mem_startsFrom h).isBoundary

theorem isBoundary_lineEnd (text : Text) (line : Nat) : text.isBoundary ((LineTable.ofText text).lineEnd line) := by
  unfold LineTable.lineEnd
  cases h : (LineTable.ofText text).starts[line]? with
  | none => exact isBoundary_byteLen text
  | some start =>
    rcases List.mem_cons.1 (List.mem_of_getElem? h) with rfl | hmem
    · exact isBoundary_zero text
    · exact isBoundary_of_mem_interior hmem

/-- Every line starts at a position, and one that is not there at the end of the text. -/
theorem isBoundary_lineStart (text : Text) (line : Nat) : text.isBoundary ((LineTable.ofText text).lineStart line) := by
  cases line with
  | zero => exact isBoundary_byteLen text
  | succ line => exact isBoundary_lineEnd text line

end Text
end Chunkwise
