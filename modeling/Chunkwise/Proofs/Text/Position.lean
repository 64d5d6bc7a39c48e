import Chunkwise.Text.Blank

/-!
# Positions as numbers of characters

The positions of a text are the byte lengths of its first `i` characters (`isBoundary_iff`). Under `offset` the
order of positions is the order of the numbers (`offset_lt_iff`, `offset_le_iff`), moving by characters adds and
subtracts (`advance?_offset`, `retreat?_offset`), and a span between two positions holds as many characters as their
numbers differ by (`charsIn_offset`). A statement about bytes is proved on the numbers and carried back.
-/

namespace Chunkwise
namespace Text

variable {text : Text} {i j n pos : Nat}

/-- Number of bytes of the first `i` characters. -/
def offset (text : Text) (i : Nat) : Nat := byteLen (text.take i)

/-- Number of characters between the ends of a span; none in a span that is no slice of the text. -/
def charsIn (text : Text) (span : Span) : Nat := ((text.slice? span).map List.length).getD 0

/-- The character that begins at an offset. -/
def charAt? (text : Text) (pos : Nat) : Option Char := (text.dropBytes? pos).bind List.head?

@[simp] theorem offset_zero : offset text 0 = 0 := by simp [offset]

theorem offset_of_length_le (h : text.length ≤ i) : offset text i = byteLen text := by
  rw [offset, List.take_of_length_le h]

@[simp] theorem offset_length : offset text text.length = byteLen text := offset_of_length_le (Nat.le_refl _)

theorem offset_add (text : Text) (i n : Nat) :
    offset text (i + n) = offset text i + byteLen ((text.drop i).take n) := by
  rw [offset, List.take_add, byteLen_append, ← offset]

theorem offset_le_offset (text : Text) (h : i ≤ j) : offset text i ≤ offset text j := by
  obtain ⟨n, rfl⟩ := Nat.exists_eq_add_of_le h
  rw [offset_add]
  exact Nat.le_add_right _ _

theorem offset_lt_offset (h : i < j) (hj : j ≤ text.length) : offset text i < offset text j := by
  obtain ⟨n, rfl⟩ := Nat.exists_eq_add_of_lt h
  have hne : (text.drop i).take (n + 1) ≠ [] := by
    intro he
    have := congrArg List.length he
    simp only [List.length_take, List.length_drop, List.length_nil] at this
    omega
  rw [Nat.add_assoc, offset_add]
  have := byteLen_pos hne
  omega

theorem offset_lt_iff (hj : j ≤ text.length) : offset text i < offset text j ↔ i < j := by
  refine ⟨fun h => ?_, fun h => offset_lt_offset h hj⟩
  rcases Nat.lt_or_ge i j with hij | hij
  · exact hij
  · have := offset_le_offset text hij
    omega

theorem offset_le_iff (hi : i ≤ text.length) : offset text i ≤ offset text j ↔ i ≤ j := by
  rw [← Nat.not_lt, offset_lt_iff hi, Nat.not_lt]

theorem offset_le_byteLen (text : Text) (i : Nat) : offset text i ≤ byteLen text := by
  rcases Nat.le_total i text.length with h | h
  · rw [← offset_length]
    exact offset_le_offset text h
  · exact Nat.le_of_eq (offset_of_length_le h)

theorem offset_min_length (text : Text) (i : Nat) : offset text (min i text.length) = offset text i := by
  rcases Nat.le_total i text.length with h | h
  · rw [Nat.min_eq_left h]
  · rw [Nat.min_eq_right h, offset_length, offset_of_length_le h]

theorem max_offset (text : Text) (i j : Nat) : max (offset text i) (offset text j) = offset text (max i j) := by
  rcases Nat.le_total i j with h | h
  · rw [Nat.max_eq_right h, Nat.max_eq_right (offset_le_offset text h)]
  · rw [Nat.max_eq_left h, Nat.max_eq_left (offset_le_offset text h)]

/-! ## Cutting at an offset -/

theorem dropBytes?_offset (text : Text) (i : Nat) : text.dropBytes? (offset text i) = some (text.drop i) := by
  have h := dropBytes?_append (text.take i) (text.drop i)
  rwa [List.take_append_drop] at h

theorem takeBytes?_offset (text : Text) (i : Nat) : text.takeBytes? (offset text i) = some (text.take i) := by
  have h := takeBytes?_append (text.take i) (text.drop i)
  rwa [List.take_append_drop] at h

/-- The positions of a text are its offsets. -/
theorem isBoundary_iff : text.isBoundary pos ↔ ∃ i ≤ text.length, pos = offset text i := by
  constructor
  · intro h
    obtain ⟨rest, hrest⟩ := Option.isSome_iff_exists.1 h
    obtain ⟨before, rfl, rfl⟩ := exists_append_of_dropBytes? hrest
    exact ⟨before.length, by simp, by simp [offset]⟩
  · rintro ⟨i, -, rfl⟩
    rw [isBoundary, dropBytes?_offset]
    rfl

theorem isBoundary_offset (text : Text) (i : Nat) : text.isBoundary (offset text i) := by
  rw [isBoundary, dropBytes?_offset]
  rfl

theorem isBoundary_zero (text : Text) : text.isBoundary 0 := by
  have h := isBoundary_offset text 0
  rwa [offset_zero] at h

theorem isBoundary_byteLen (text : Text) : text.isBoundary (byteLen text) := by
  rw [← offset_length]
  exact isBoundary_offset text _

theorem isBoundary_append (before after : Text) : isBoundary (before ++ after) (byteLen before) := by
  rw [isBoundary, dropBytes?_append]
  rfl

theorem le_byteLen_of_isBoundary (h : text.isBoundary pos) : pos ≤ byteLen text := by
  obtain ⟨i, -, rfl⟩ := isBoundary_iff.1 h
  exact offset_le_byteLen text i

theorem isBoundary_max {p q : Nat} (hp : text.isBoundary p) (hq : text.isBoundary q) : text.isBoundary (max p q) := by
  rcases Nat.le_total p q with h | h
  · rwa [Nat.max_eq_right h]
  · rwa [Nat.max_eq_left h]

theorem isBoundary_min {p q : Nat} (hp : text.isBoundary p) (hq : text.isBoundary q) : text.isBoundary (min p q) := by
  rcases Nat.le_total p q with h | h
  · rwa [Nat.min_eq_left h]
  · rwa [Nat.min_eq_right h]

/-! ## Moving by characters -/

/-- Moving forward adds; behind the last character every offset is the end of the text. -/
theorem advance?_offset (text : Text) (i n : Nat) :
    text.advance? (offset text i) n = some (offset text (i + n)) := by
  rw [advance?, dropBytes?_offset, Option.map_some, offset_add]

/-- Moving backward subtracts. -/
theorem retreat?_offset (hi : i ≤ text.length) (n : Nat) :
    text.retreat? (offset text i) n = some (offset text (i - n)) := by
  unfold retreat?
  split
  · rename_i hn
    rw [hn, Nat.sub_zero]
  · rw [takeBytes?_offset, Option.map_some, List.length_take, Nat.min_eq_left hi, List.take_take, offset]
    rw [Nat.min_eq_left (Nat.sub_le _ _)]

/-- What a forward move finds: where it begins there is a position, and where it ends the one that many characters
on. -/
theorem exists_offset_of_advance? {q : Nat} (h : text.advance? pos n = some q) :
    ∃ i ≤ text.length, pos = offset text i ∧ q = offset text (i + n) := by
  obtain ⟨rest, hrest, -⟩ := Option.map_eq_some_iff.1 h
  obtain ⟨i, hi, rfl⟩ := isBoundary_iff.1 (Option.isSome_iff_exists.2 ⟨rest, hrest⟩)
  rw [advance?_offset] at h
  exact ⟨i, hi, rfl, (Option.some.inj h).symm⟩

theorem exists_append_of_takeBytes? {s t : Text} (h : takeBytes? s n = some t) :
    ∃ rest, s = t ++ rest ∧ n = byteLen t := by
  induction s generalizing n t with
  | nil =>
    cases n with
    | zero =>
      cases h
      exact ⟨[], rfl, rfl⟩
    | succ n => cases h
  | cons c s ih =>
    cases n with
    | zero =>
      cases h
      exact ⟨c :: s, rfl, rfl⟩
    | succ n =>
      rw [takeBytes?] at h
      split at h
      · obtain ⟨u, hu, rfl⟩ := Option.map_eq_some_iff.1 h
        obtain ⟨rest, rfl, hn⟩ := ih hu
        exact ⟨rest, rfl, by simp only [byteLen_cons]; omega⟩
      · cases h

/-- A backward move by at least one character begins at a position. -/
theorem exists_offset_of_retreat? {q : Nat} (hn : n ≠ 0) (h : text.retreat? pos n = some q) :
    ∃ i ≤ text.length, pos = offset text i ∧ q = offset text (i - n) := by
  have htake := h
  rw [retreat?, if_neg hn] at htake
  obtain ⟨before, hbefore, -⟩ := Option.map_eq_some_iff.1 htake
  obtain ⟨rest, rfl, rfl⟩ := exists_append_of_takeBytes? hbefore
  have hpos : byteLen before = offset (before ++ rest) before.length := by simp [offset]
  have hi : before.length ≤ (before ++ rest).length := by simp
  rw [hpos, retreat?_offset hi] at h
  exact ⟨before.length, hi, hpos, (Option.some.inj h).symm⟩

/-- A backward move does not go forward. -/
theorem retreat?_le {q : Nat} (h : text.retreat? pos n = some q) : q ≤ pos := by
  by_cases hn : n = 0
  · rw [retreat?, if_pos hn] at h
    exact Nat.le_of_eq (Option.some.inj h).symm
  · obtain ⟨i, -, rfl, rfl⟩ := exists_offset_of_retreat? hn h
    exact offset_le_offset text (Nat.sub_le _ _)

/-- Forward moves by no fewer characters from no earlier positions reach no earlier ones. -/
theorem advance?_le_advance? {p q p' q' m : Nat} (h : text.advance? p n = some p') (h' : text.advance? q m = some q')
    (hle : p ≤ q) (hnm : n ≤ m) : p' ≤ q' := by
  obtain ⟨i, hi, rfl, rfl⟩ := exists_offset_of_advance? h
  obtain ⟨j, -, rfl, rfl⟩ := exists_offset_of_advance? h'
  have hij : i ≤ j := (offset_le_iff hi).1 hle
  exact offset_le_offset text (by omega)

theorem le_of_advance? {q : Nat} (h : text.advance? pos n = some q) : pos ≤ q := by
  obtain ⟨i, -, rfl, rfl⟩ := exists_offset_of_advance? h
  exact offset_le_offset text (Nat.le_add_right _ _)

/-- Moving back from what a forward move reaches does not go behind its start. -/
theorem retreat?_le_of_le_advance? {p q p' q' : Nat} (hn : n ≠ 0) (h : text.advance? p n = some p')
    (h' : text.retreat? q n = some q') (hle : q ≤ p') : q' ≤ p := by
  obtain ⟨i, -, rfl, rfl⟩ := exists_offset_of_advance? h
  obtain ⟨j, hj, rfl, rfl⟩ := exists_offset_of_retreat? hn h'
  have hij : j ≤ i + n := (offset_le_iff hj).1 hle
  exact offset_le_offset text (by omega)

/-! ## Slices -/

theorem slice?_offset (hij : i ≤ j) :
    text.slice? ⟨offset text i, offset text j⟩ = some ((text.drop i).take (j - i)) := by
  obtain ⟨n, rfl⟩ := Nat.exists_eq_add_of_le hij
  rw [slice?, if_pos (offset_le_offset text hij), dropBytes?_offset, Option.bind_some, offset_add,
    Nat.add_sub_cancel_left, Nat.add_sub_cancel_left]
  have h := takeBytes?_append ((text.drop i).take n) ((text.drop i).drop n)
  rwa [List.take_append_drop] at h

/-- What begins and ends at positions is a slice. -/
theorem exists_slice? {start stop : Nat} (hle : start ≤ stop) (hstart : text.isBoundary start)
    (hstop : text.isBoundary stop) : ∃ slice, text.slice? ⟨start, stop⟩ = some slice := by
  obtain ⟨i, hi, rfl⟩ := isBoundary_iff.1 hstart
  obtain ⟨j, -, rfl⟩ := isBoundary_iff.1 hstop
  exact ⟨_, slice?_offset ((offset_le_iff hi).1 hle)⟩

/-- A slice stands between two positions. -/
theorem exists_offset_of_slice? {span : Span} {slice : Text} (h : text.slice? span = some slice) :
    ∃ i j, i ≤ j ∧ j ≤ text.length ∧ span = ⟨offset text i, offset text j⟩ ∧ slice = (text.drop i).take (j - i) := by
  rw [slice?] at h
  split at h
  · rename_i hle
    obtain ⟨rest, hrest, htake⟩ := Option.bind_eq_some_iff.1 h
    obtain ⟨before, rfl, hstart⟩ := exists_append_of_dropBytes? hrest
    obtain ⟨after, rfl, hstop⟩ := exists_append_of_takeBytes? htake
    have hlen : span.stop = byteLen before + byteLen slice := by omega
    have hleft : offset (before ++ (slice ++ after)) before.length = byteLen before := by simp [offset]
    have hright : offset (before ++ (slice ++ after)) (before.length + slice.length) =
        byteLen before + byteLen slice := by
      rw [offset_add, hleft, List.drop_left, List.take_left]
    refine ⟨before.length, before.length + slice.length, by omega, by simp, ?_, by simp⟩
    rw [hleft, hright, ← hlen, ← hstart]
  · cases h

/-- A slice stands in its text between what is before it and what is behind it. -/
theorem exists_append_of_slice? {span : Span} {slice : Text} (h : text.slice? span = some slice) :
    ∃ before after, text = before ++ (slice ++ after) ∧ span = ⟨byteLen before, byteLen before + byteLen slice⟩ := by
  obtain ⟨i, j, hij, -, rfl, rfl⟩ := exists_offset_of_slice? h
  refine ⟨text.take i, (text.drop i).drop (j - i), by rw [List.take_append_drop, List.take_append_drop], ?_⟩
  have hstop := offset_add text i (j - i)
  rw [Nat.add_sub_cancel' hij] at hstop
  rw [hstop]
  rfl

theorem slice?_all (text : Text) : text.slice? ⟨0, byteLen text⟩ = some text := by
  simpa using slice?_middle [] text []

/-- A span between two positions has as many characters as their numbers differ by. -/
theorem charsIn_offset (hi : i ≤ text.length) (hj : j ≤ text.length) :
    text.charsIn ⟨offset text i, offset text j⟩ = j - i := by
  rcases Nat.lt_or_ge j i with h | h
  · have hlt := offset_lt_offset h hi
    rw [charsIn, slice?, if_neg (by simp only; omega)]
    simp only [Option.map_none, Option.getD_none]
    omega
  · rw [charsIn, slice?_offset h]
    simp only [Option.map_some, Option.getD_some, List.length_take, List.length_drop]
    omega

theorem charsIn_of_slice? {span : Span} {slice : Text} (h : text.slice? span = some slice) :
    text.charsIn span = slice.length := by
  rw [charsIn, h]
  rfl

/-! ## Characters and blank stretches -/

theorem charAt?_offset (text : Text) (i : Nat) : text.charAt? (offset text i) = text[i]? := by
  rw [charAt?, dropBytes?_offset, Option.bind_some, List.head?_drop]

/-- The characters of a text begin at its offsets. -/
theorem charAt?_eq_some_iff {c : Char} : text.charAt? pos = some c ↔ ∃ i, pos = offset text i ∧ text[i]? = some c := by
  constructor
  · intro h
    obtain ⟨rest, hrest, hc⟩ := Option.bind_eq_some_iff.1 h
    obtain ⟨before, rfl, rfl⟩ := exists_append_of_dropBytes? hrest
    refine ⟨before.length, by simp [offset], ?_⟩
    rw [List.getElem?_append_right (Nat.le_refl _), Nat.sub_self, ← List.head?_eq_getElem?]
    exact hc
  · rintro ⟨i, rfl, hc⟩
    rw [charAt?_offset, hc]

theorem offset_succ {c : Char} (h : text[i]? = some c) : offset text (i + 1) = offset text i + c.utf8Size := by
  obtain ⟨hi, rfl⟩ := List.getElem?_eq_some_iff.1 h
  rw [offset, List.take_succ_eq_append_getElem hi, byteLen_append, byteLen_cons, byteLen_nil, Nat.add_zero, ← offset]

/-- Whether the characters from the `i`-th up to the `j`-th are blank. -/
def BlankFrom (text : Text) (i j : Nat) : Prop := ∀ k c, i ≤ k → k < j → text[k]? = some c → isBlankChar c

theorem isBlank_take_drop : isBlank ((text.drop i).take (j - i)) ↔ BlankFrom text i j := by
  rw [isBlank, List.all_eq_true]
  constructor
  · intro h k c hik hkj hc
    refine h c (List.mem_of_getElem? (i := k - i) ?_)
    rw [List.getElem?_take_of_lt (by omega), List.getElem?_drop, show i + (k - i) = k by omega]
    exact hc
  · intro h c hc
    obtain ⟨k, hk⟩ := List.mem_iff_getElem?.1 hc
    have hlt : k < j - i := by
      rcases Nat.lt_or_ge k (j - i) with hlt | hge
      · exact hlt
      · rw [List.getElem?_take_eq_none hge] at hk
        cases hk
    rw [List.getElem?_take_of_lt hlt, List.getElem?_drop] at hk
    exact h (i + k) c (by omega) (by omega) hk

/-- The blanks that a slice begins with reach up to its end, or up to a character that is not blank. -/
theorem exists_blanks {span : Span} {slice : Text} (h : text.slice? span = some slice) :
    ∃ i k j, i ≤ k ∧ k ≤ j ∧ j ≤ text.length ∧ span = ⟨offset text i, offset text j⟩ ∧
      span.start + byteLen (slice.takeWhile isBlankChar) = offset text k ∧ BlankFrom text i k ∧
      (k = j ∨ ∃ c, text[k]? = some c ∧ ¬ isBlankChar c) := by
  obtain ⟨i, j, hij, hj, rfl, hslice⟩ := exists_offset_of_slice? h
  let blanks := slice.takeWhile isBlankChar
  have hblanks : blanks = (text.drop i).take blanks.length :=
    List.prefix_iff_eq_take.1 ((List.takeWhile_prefix _).trans (hslice ▸ List.take_prefix _ _))
  have hsplit : slice = blanks ++ slice.trimLeft := List.takeWhile_append_dropWhile.symm
  have hlen : blanks.length + slice.trimLeft.length = j - i := by
    rw [← List.length_append, ← hsplit, hslice, List.length_take, List.length_drop]
    omega
  refine ⟨i, i + blanks.length, j, Nat.le_add_right _ _, by omega, hj, rfl, ?_, isBlank_take_drop.1 ?_, ?_⟩
  · rw [offset_add, ← hblanks]
  · rw [Nat.add_sub_cancel_left, ← hblanks]
    exact List.all_takeWhile
  · cases hrest : slice.trimLeft with
    | nil =>
      rw [hrest, List.length_nil] at hlen
      exact Or.inl (by omega)
    | cons c rest =>
      refine Or.inr ⟨c, ?_, not_isBlankChar_of_trimLeft hrest⟩
      have hc : slice[blanks.length]? = some c := by
        rw [hsplit, hrest, List.getElem?_append_right (Nat.le_refl _), Nat.sub_self, List.getElem?_cons_zero]
      rw [hrest, List.length_cons] at hlen
      rwa [hslice, List.getElem?_take_of_lt (by omega), List.getElem?_drop] at hc

/-- What is not blank in a slice begins at a position of it. -/
theorem exists_ink_of_slice? {span : Span} {slice : Text} (h : text.slice? span = some slice) (hink : ¬ slice.isBlank) :
    ∃ pos c, text.charAt? pos = some c ∧ ¬ isBlankChar c ∧ span.covers pos := by
  obtain ⟨i, j, -, hj, rfl, rfl⟩ := exists_offset_of_slice? h
  rw [isBlank_take_drop] at hink
  simp only [BlankFrom, Classical.not_forall] at hink
  obtain ⟨k, c, hik, hkj, hc, hblank⟩ := hink
  refine ⟨offset text k, c, charAt?_eq_some_iff.2 ⟨k, rfl, hc⟩, hblank, ?_⟩
  simp only [Span.covers_iff]
  exact ⟨offset_le_offset text hik, offset_lt_offset hkj hj⟩

theorem BlankFrom.trans {k : Nat} (h : BlankFrom text i k) (h' : BlankFrom text k j) : BlankFrom text i j := by
  intro m c him hmj hc
  rcases Nat.lt_or_ge m k with hm | hm
  · exact h m c him hm hc
  · exact h' m c hm hmj hc

theorem BlankFrom.mono {i' j' : Nat} (h : BlankFrom text i j) (hi : i ≤ i') (hj : j' ≤ j) : BlankFrom text i' j' :=
  fun k c hik hkj hc => h k c (Nat.le_trans hi hik) (Nat.lt_of_lt_of_le hkj hj) hc

/-- What has something in it that is not blank makes all around it not blank. -/
theorem not_isBlank_of_encloses {inner outer : Span} {slice slice' : Text} (h : text.slice? inner = some slice)
    (h' : text.slice? outer = some slice') (hle : outer.start ≤ inner.start ∧ inner.stop ≤ outer.stop)
    (hblank : ¬ slice.isBlank) : ¬ slice'.isBlank := by
  obtain ⟨i, j, hij, hj, rfl, rfl⟩ := exists_offset_of_slice? h
  obtain ⟨k, l, hkl, hl, rfl, rfl⟩ := exists_offset_of_slice? h'
  have hki : k ≤ i := (offset_le_iff (by omega)).1 hle.1
  have hjl : j ≤ l := (offset_le_iff hj).1 hle.2
  rw [isBlank_take_drop] at hblank ⊢
  exact fun hall => hblank (hall.mono hki hjl)

theorem blankFrom_self (text : Text) (i : Nat) : BlankFrom text i i := fun _ _ hik hki _ => by omega

end Text
end Chunkwise
