import Chunkwise.Proofs.Chunk.Assemble
import Chunkwise.Proofs.Text.Bytes

/-!
# What a chunk says of itself

The `i`-th chunk is made of the `i`-th window (`Chunk.exists_getElem?_of_assembleFrom`). Its numbers are those of its
content and of where this stands in the document (`Chunk.Tells`): its lines are the ones that own a byte of it, its
first line that of its first byte, its last line that of its last byte (`Chunk.tells_of_ofWindow?`). Along windows that
move on both lines move on (`Chunk.chunks_match_content`).
-/

namespace Chunkwise

theorem Span.SliceOf.exists_slice? {span : Span} {text : Text} (h : span.SliceOf text) :
    ∃ slice, text.slice? span = some slice :=
  Text.exists_slice? (Nat.le_of_lt h.nonempty) h.start h.stop

namespace Chunk

variable {document : Document} {lines : LineTable} {language chunker : String} {label : Span → Label}
variable {windows : List Window} {w : Window} {c : Chunk} {chunks : List Chunk} {index total : Nat}

/-- What a chunk says of itself if it is the one of a window, in its place among all of a document. -/
structure Tells (document : Document) (index total : Nat) (w : Window) (c : Chunk) : Prop where
  slice : document.content.slice? w.span = some c.content
  window : c.window = w
  index : c.metadata.chunkIndex = index
  total : c.metadata.totalChunks = total
  size : c.metadata.chunkSize = c.content.length
  metadata : c.metadata.document = document.metadata
  truncated : c.metadata.truncated = false
  startLine : c.metadata.startLine = 1 + document.content.rowAt c.metadata.startByte
  endLine : c.metadata.endLine = 1 + document.content.rowAt (c.metadata.endByte - 1)
  startLine_le : c.metadata.startLine ≤ c.metadata.endLine
  lineCount : c.lineCount = c.content.pieces.length
  containsLine : ∀ line, c.containsLine line ↔ ∃ pos, c.span.covers pos ∧ document.content.Owns line pos

/-- The chunk of a window has its place. -/
theorem exists_getElem?_of_assembleFrom {i : Nat}
    (h : assembleFrom document lines language chunker label index total windows = some chunks)
    (hw : windows[i]? = some w) :
    ∃ c, chunks[i]? = some c ∧ ofWindow? document lines language chunker label (index + i) total w = some c := by
  induction windows generalizing index chunks i with
  | nil => cases hw
  | cons first windows ih =>
    rw [assembleFrom] at h
    split at h
    · rename_i c rest hc hrest
      cases h
      cases i with
      | zero =>
        cases hw
        exact ⟨c, rfl, hc⟩
      | succ i =>
        obtain ⟨d, hd, hmade⟩ := ih hrest hw
        refine ⟨d, hd, ?_⟩
        rw [show index + (i + 1) = index + 1 + i by omega]
        exact hmade
    · cases h

/-- The lines between the first and the last of a span are those that own a byte of it. -/
theorem owns_between {text : Text} {span : Span} (hlt : span.start < span.stop) (hstop : span.stop ≤ text.byteLen)
    (line : Nat) : (∃ pos, span.covers pos ∧ text.Owns line pos) ↔
      1 + text.rowAt span.start ≤ line ∧ line ≤ 1 + text.rowAt (span.stop - 1) := by
  constructor
  · rintro ⟨pos, hpos, howns⟩
    rw [Span.covers_iff] at hpos
    rw [Text.owns_iff (by omega)] at howns
    have hfirst := Text.rowAt_le_rowAt text hpos.1
    have hlast := Text.rowAt_le_rowAt text (show pos ≤ span.stop - 1 by omega)
    omega
  · rintro ⟨hfirst, hlast⟩
    have hstart : span.start ≤ span.stop - 1 := by omega
    have hrowFirst : text.rowAt span.start ≤ line - 1 := by omega
    have hrowLast : line - 1 ≤ text.rowAt (span.stop - 1) := by omega
    obtain ⟨pos, hpos, hle, hrow⟩ := Text.exists_rowAt hstart hrowFirst hrowLast
    refine ⟨pos, Span.covers_iff.2 ⟨hpos, by omega⟩, ?_⟩
    rw [Text.owns_iff (by omega)]
    omega

/-- The chunk of a window that is not empty says of itself what its content and its place tell. -/
theorem tells_of_ofWindow?
    (h : ofWindow? document (LineTable.ofText document.content) language chunker label index total w = some c)
    (hlt : w.span.start < w.span.stop) : c.Tells document index total w := by
  obtain ⟨slice, hslice, rfl⟩ := Option.map_eq_some_iff.1 h
  obtain ⟨before, after, htext, hspan⟩ := Text.exists_append_of_slice? hslice
  have hstop : w.span.stop ≤ document.content.byteLen := by
    rw [htext, hspan, Text.byteLen_append, Text.byteLen_append]
    simp only
    omega
  have hne : slice ≠ [] := by
    rintro rfl
    rw [hspan] at hlt
    simp at hlt
  have hfirst := LineTable.lineOf_eq (show w.span.start < document.content.byteLen by omega)
  have hlast := LineTable.lineOf_eq (show w.span.stop - 1 < document.content.byteLen by omega)
  have hmax : max (w.span.stop - 1) w.span.start = w.span.stop - 1 := by omega
  have hrows := Text.rowAt_le_rowAt document.content (show w.span.start ≤ w.span.stop - 1 by omega)
  have hpieces := Text.length_pieces hne
  have hcount := Text.rowAt_last_of_slice? hslice hne
  refine ⟨hslice, rfl, rfl, rfl, rfl, rfl, rfl, ?_, ?_, ?_, ?_, fun line => ?_⟩
  · simp only [hfirst]
    omega
  · simp only [hmax, hlast]
    omega
  · simp only [hmax, hfirst, hlast]
    omega
  · simp only [lineCount, hmax, hfirst, hlast, hpieces, hcount]
    omega
  · have hbetween := owns_between hlt hstop line
    simp only [span, containsLine, hmax, hfirst, hlast, Bool.and_eq_true, decide_eq_true_eq]
    rw [hbetween]
    omega

/-- **Chunks match their content.** Windows that are not empty, stand on positions of a document and move on give one
chunk each, in their order. Each tells its place, its size and its lines as its content has them, and the lines of the
chunks move on as well. -/
theorem chunks_match_content (document : Document) (language chunker : String) (label : Span → Label)
    (windows : List Window) (hwindows : ∀ w ∈ windows, w.span.SliceOf document.content)
    (hstarts : windows.Pairwise fun a b => a.span.start ≤ b.span.start)
    (hstops : windows.Pairwise fun a b => a.span.stop < b.span.stop) :
    ∃ chunks, assemble document language chunker label windows = some chunks ∧ chunks.length = windows.length ∧
      (∀ (i : Nat) (w : Window), windows[i]? = some w →
        ∃ c, chunks[i]? = some c ∧ Tells document i windows.length w c) ∧
      chunks.Pairwise fun a b => a.metadata.startLine ≤ b.metadata.startLine ∧
        a.metadata.endLine ≤ b.metadata.endLine := by
  obtain ⟨chunks, hchunks, hmap, -⟩ := exists_assembleFrom (LineTable.ofText document.content) language chunker label 0
    windows.length fun w hw => (hwindows w hw).exists_slice?
  have htells : ∀ (i : Nat) (w : Window), windows[i]? = some w →
      ∃ c, chunks[i]? = some c ∧ Tells document i windows.length w c := by
    intro i w hw
    obtain ⟨c, hc, hmade⟩ := exists_getElem?_of_assembleFrom hchunks hw
    rw [Nat.zero_add] at hmade
    exact ⟨c, hc, tells_of_ofWindow? hmade (hwindows w (List.mem_of_getElem? hw)).nonempty⟩
  have hlines : ∀ c ∈ chunks, c.metadata.startLine = 1 + document.content.rowAt c.metadata.startByte ∧
      c.metadata.endLine = 1 + document.content.rowAt (c.metadata.endByte - 1) := by
    intro c hc
    obtain ⟨i, hi⟩ := List.mem_iff_getElem?.1 hc
    have hw : windows[i]? = some c.window := by rw [← hmap, List.getElem?_map, hi, Option.map_some]
    obtain ⟨d, hd, htells⟩ := htells i _ hw
    obtain rfl : c = d := Option.some.inj (hi.symm.trans hd)
    exact ⟨htells.startLine, htells.endLine⟩
  refine ⟨chunks, hchunks, length_assembleFrom hchunks, htells, ?_⟩
  rw [← hmap] at hstarts hstops
  have hmoves := (List.pairwise_map.1 hstarts).and (List.pairwise_map.1 hstops)
  refine hmoves.imp_of_mem fun {a b} ha hb hab => ?_
  have hstart : a.metadata.startByte ≤ b.metadata.startByte := hab.1
  have hstop : a.metadata.endByte - 1 ≤ b.metadata.endByte - 1 := Nat.sub_le_sub_right (Nat.le_of_lt hab.2) 1
  rw [(hlines a ha).1, (hlines a ha).2, (hlines b hb).1, (hlines b hb).2]
  exact ⟨Nat.add_le_add_left (Text.rowAt_le_rowAt _ hstart) 1, Nat.add_le_add_left (Text.rowAt_le_rowAt _ hstop) 1⟩

/-- A first line that ends in two bytes before its newline, one line below it, and one without a newline. -/
def accentedDocument : Document := ⟨['a', 'é', '\n', 'b', '\n', 'c'], { filePath := "a.txt" }⟩

/-- A window up to a newline, one that begins with that newline and ends behind the next, and one to the end. -/
def accentedWindows : List Window := [⟨⟨1, 4⟩, false⟩, ⟨⟨3, 6⟩, false⟩, ⟨⟨3, 7⟩, true⟩]

/-- The second chunk is on two lines, the newline that it begins with being part of the first. -/
theorem chunks_match_content_accents :
    ((∀ w ∈ accentedWindows, w.span.SliceOf accentedDocument.content) ∧
        (accentedWindows.Pairwise fun a b => a.span.start ≤ b.span.start) ∧
        accentedWindows.Pairwise fun a b => a.span.stop < b.span.stop) ∧
      ∃ chunks c, assemble accentedDocument "text" "plain" (fun _ => ⟨.fallback, [], false⟩) accentedWindows =
          some chunks ∧
        chunks[1]? = some c ∧ c.content = ['\n', 'b', '\n'] ∧ c.metadata.chunkSize = 3 ∧ c.lineCount = 2 ∧
        c.containsLine 1 ∧ ∃ pos, c.span.covers pos ∧ accentedDocument.content.Owns 1 pos := by
  have hwindows : ∀ w ∈ accentedWindows, w.span.SliceOf accentedDocument.content := by
    intro w hw
    simp only [accentedWindows, List.mem_cons, List.not_mem_nil, or_false] at hw
    rcases hw with rfl | rfl | rfl <;> exact ⟨by decide, by decide, by decide⟩
  have hstarts : accentedWindows.Pairwise fun a b => a.span.start ≤ b.span.start := by decide
  have hstops : accentedWindows.Pairwise fun a b => a.span.stop < b.span.stop := by decide
  obtain ⟨chunks, hchunks, -, htells, -⟩ := chunks_match_content accentedDocument "text" "plain"
    (fun _ => ⟨.fallback, [], false⟩) accentedWindows hwindows hstarts hstops
  obtain ⟨c, hc, htells⟩ := htells 1 ⟨⟨3, 6⟩, false⟩ rfl
  have hcontent : c.content = ['\n', 'b', '\n'] := by
    have hslice : accentedDocument.content.slice? ⟨3, 6⟩ = some ['\n', 'b', '\n'] := by decide
    exact Option.some.inj (htells.slice.symm.trans hslice)
  have hspan : c.span = ⟨3, 6⟩ := congrArg Window.span htells.window
  have hfirst : ∃ pos, c.span.covers pos ∧ accentedDocument.content.Owns 1 pos :=
    ⟨3, by rw [hspan]; decide, (Text.owns_iff (by decide)).2 (by decide)⟩
  refine ⟨⟨hwindows, hstarts, hstops⟩, chunks, c, hchunks, hc, hcontent, ?_, ?_, (htells.containsLine 1).2 hfirst,
    hfirst⟩
  · rw [htells.size, hcontent]
    rfl
  · rw [htells.lineCount, hcontent]
    rfl

end Chunk
end Chunkwise
