import Chunkwise.Proofs.Chunker.Complete
import Chunkwise.Proofs.Text.Bytes

/-!
# The numbers of a chunk

Every number that a chunk carries stays within the length of its text (`Chunk.InRange`): offsets and sizes by the slice
it is, its lines since every line but the first takes a newline, its place since the windows of a text end at
different offsets.
-/

namespace Chunkwise

variable {document : Document} {lines : LineTable} {language chunker : String} {label : Span → Label}
variable {chunks : List Chunk} {windows : List Window} {table : CutTable} {text : Text}

/-- What the numbers of a chunk of a text are bounded by. -/
structure Chunk.InRange (text : Text) (c : Chunk) : Prop where
  index_lt : c.metadata.chunkIndex < c.metadata.totalChunks
  total_le : c.metadata.totalChunks ≤ text.byteLen
  start_le : c.metadata.startByte ≤ c.metadata.endByte
  end_le : c.metadata.endByte ≤ text.byteLen
  size_le : c.metadata.chunkSize ≤ text.byteLen
  line_pos : 0 < c.metadata.startLine
  line_le : c.metadata.startLine ≤ c.metadata.endLine
  line_end_le : c.metadata.endLine ≤ text.byteLen + 1
  tokens_le : c.metadata.estimatedTokens ≤ text.byteLen

/-! ## Lines -/

theorem Text.length_startsFrom_le (pos : Nat) (s : Text) : (startsFrom pos s).length ≤ byteLen s := by
  rw [length_startsFrom]
  exact Nat.le_trans List.count_le_length (Nat.le_trans (List.dropLast_sublist s).length_le (length_le_byteLen s))

namespace LineTable

theorem lineOf_le (text : Text) (pos : Nat) : (ofText text).lineOf pos ≤ Text.byteLen text + 1 := by
  have hcount : (ofText text).lineOf pos ≤ (ofText text).starts.length := List.countP_le_length
  have hlength := Text.length_startsFrom_le 0 text
  have hstarts : (ofText text).starts.length = (Text.startsFrom 0 text).length + 1 := List.length_cons
  omega

theorem lineOf_le_lineOf (t : LineTable) {p q : Nat} (h : p ≤ q) : t.lineOf p ≤ t.lineOf q := by
  refine List.countP_mono_left fun start _ hstart => ?_
  rw [decide_eq_true_eq] at hstart ⊢
  omega

end LineTable

/-! ## Places -/

/-- Spans that end at different offsets within a stretch, none of them at its start, are no more than its bytes. -/
theorem length_le_of_stops (lo hi : Nat) {spans : List Span} (h : spans.Pairwise fun a b => a.stop < b.stop)
    (hin : ∀ s ∈ spans, lo < s.stop ∧ s.stop ≤ hi) : spans.length ≤ hi - lo := by
  induction spans generalizing lo with
  | nil => exact Nat.zero_le _
  | cons s spans ih =>
    obtain ⟨hlater, hrest⟩ := List.pairwise_cons.1 h
    have hs := hin s List.mem_cons_self
    have hle := ih s.stop hrest fun t ht => ⟨hlater t ht, (hin t (List.mem_cons_of_mem _ ht)).2⟩
    rw [List.length_cons]
    omega

/-- A window that is not blank ends behind the start of the text. -/
theorem Text.stop_of_slice? {span : Span} {slice : Text} (h : text.slice? span = some slice) (hblank : ¬ slice.isBlank) :
    span.start ≤ span.stop ∧ 0 < span.stop ∧ span.stop ≤ text.byteLen ∧ slice.byteLen ≤ text.byteLen := by
  obtain ⟨i, j, hij, hj, rfl, rfl⟩ := exists_offset_of_slice? h
  have hne : (text.drop i).take (j - i) ≠ [] := by
    intro hnil
    rw [hnil] at hblank
    exact hblank rfl
  have hpos : i < j := by
    rcases Nat.lt_or_ge i j with hlt | hge
    · exact hlt
    · rw [Nat.sub_eq_zero_of_le hge, List.take_zero] at hne
      exact absurd rfl hne
  have hoffset := offset_lt_offset hpos hj
  refine ⟨Nat.le_of_lt hoffset, Nat.lt_of_le_of_lt (Nat.zero_le _) hoffset, offset_le_byteLen text j, ?_⟩
  have hsplit : byteLen text = byteLen (text.take i) + byteLen ((text.drop i).take (j - i)) +
      byteLen ((text.drop i).drop (j - i)) := by
    rw [← byteLen_append, ← byteLen_append, List.append_assoc, List.take_append_drop, List.take_append_drop]
  omega

theorem Text.CoveredBy.length_le {spans : List Span} (h : text.CoveredBy spans) : spans.length ≤ text.byteLen := by
  refine length_le_of_stops 0 _ h.stops fun s hs => ?_
  obtain ⟨slice, hslice, hblank⟩ := h.slices s hs
  exact (Text.stop_of_slice? hslice hblank).2.imp_right fun hle => hle.1

/-! ## Chunks -/

namespace Chunk

/-- Every chunk is made of a window, in its place. -/
theorem exists_window_of_mem {index total : Nat} {c : Chunk}
    (h : assembleFrom document lines language chunker label index total windows = some chunks) (hc : c ∈ chunks) :
    ∃ i, index ≤ i ∧ i < index + windows.length ∧ ∃ w ∈ windows,
      ofWindow? document lines language chunker label i total w = some c := by
  induction windows generalizing index chunks with
  | nil =>
    cases h
    cases hc
  | cons w windows ih =>
    rw [assembleFrom] at h
    split at h
    · rename_i first rest hfirst hrest
      cases h
      rw [List.length_cons]
      rcases List.mem_cons.1 hc with rfl | hc
      · exact ⟨index, Nat.le_refl _, by omega, w, List.mem_cons_self, hfirst⟩
      · obtain ⟨i, hle, hlt, w', hw', hmade⟩ := ih hrest hc
        exact ⟨i, by omega, by omega, w', List.mem_cons_of_mem _ hw', hmade⟩
    · cases h

theorem inRange_of_ofWindow? {index total : Nat} {w : Window} {c : Chunk} {slice : Text}
    (h : ofWindow? document (LineTable.ofText document.content) language chunker label index total w = some c)
    (hindex : index < total) (htotal : total ≤ document.content.byteLen)
    (hslice : document.content.slice? w.span = some slice) (hblank : ¬ slice.isBlank) :
    c.InRange document.content := by
  rw [ofWindow?, hslice] at h
  cases h
  obtain ⟨hle, hpos, hstop, hbytes⟩ := Text.stop_of_slice? hslice hblank
  have hchars := Text.length_le_byteLen slice
  refine ⟨hindex, htotal, hle, hstop, Nat.le_trans hchars hbytes, LineTable.lineOf_pos _ _,
    LineTable.lineOf_le_lineOf _ (Nat.le_max_right _ _), LineTable.lineOf_le _ _, ?_⟩
  simp only [estimateTokens]
  omega

end Chunk

namespace Chunker

theorem exists_assemble_of_cutWith {size overlap : Nat}
    (h : cutWith table document size overlap language chunker label = .ok chunks) :
    ∃ windows, Chunk.assemble document language chunker label windows = some chunks := by
  rw [cutWith] at h
  split at h
  · rename_i found hfound
    cases h
    obtain ⟨windows, -, hchunks⟩ := Option.bind_eq_some_iff.1 hfound
    exact ⟨windows, hchunks⟩
  · cases h

/-- The numbers of chunks that nothing is lost in are in range. -/
theorem inRange_of_cutWith {size overlap : Nat}
    (h : cutWith table document size overlap language chunker label = .ok chunks)
    (hcomplete : Complete document.content chunks) : ∀ c ∈ chunks, c.InRange document.content := by
  obtain ⟨windows, hassemble⟩ := exists_assemble_of_cutWith h
  have hlength : chunks.length = windows.length := Chunk.length_assembleFrom hassemble
  have htotal := hcomplete.covered.length_le
  rw [List.length_map, hlength] at htotal
  intro c hc
  obtain ⟨i, -, hlt, w, -, hmade⟩ := Chunk.exists_window_of_mem hassemble hc
  rw [Nat.zero_add] at hlt
  obtain ⟨slice, hslice, hblank⟩ := hcomplete.covered.slices c.span (List.mem_map_of_mem hc)
  have hspan : c.span = w.span := by
    obtain ⟨content, -, hcontent⟩ := Option.map_eq_some_iff.1 hmade
    rw [← hcontent]
    rfl
  rw [hspan] at hslice
  exact Chunk.inRange_of_ofWindow? hmade hlt htotal hslice hblank

end Chunker
end Chunkwise
