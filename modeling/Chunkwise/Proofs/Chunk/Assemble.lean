import Chunkwise.Chunker.Basic
import Chunkwise.Proofs.Window.Cover

/-!
# Chunks of windows

Windows that are slices of their document always give chunks (`Chunk.exists_assembleFrom`): one for each window, with
its span, its mark and the text of its slice. A chunker that cuts by a table that fits the document therefore succeeds,
and its chunks have the windows of the table (`Chunker.exists_cutWith`).
-/

namespace Chunkwise

def Chunk.span (c : Chunk) : Span := ⟨c.metadata.startByte, c.metadata.endByte⟩

/-- The window that a chunk was made of. -/
def Chunk.window (c : Chunk) : Window := ⟨c.span, c.metadata.oversized⟩

variable {document : Document} {language chunker : String} {label : Span → Label} {windows : List Window}

theorem Chunk.exists_assembleFrom (lines : LineTable) (language chunker : String) (label : Span → Label)
    (index total : Nat) (h : ∀ w ∈ windows, ∃ slice, document.content.slice? w.span = some slice) :
    ∃ chunks, assembleFrom document lines language chunker label index total windows = some chunks ∧
      chunks.map window = windows ∧ ∀ c ∈ chunks, document.content.slice? c.span = some c.content := by
  induction windows generalizing index with
  | nil => exact ⟨[], rfl, rfl, fun c hc => by cases hc⟩
  | cons w windows ih =>
    obtain ⟨slice, hslice⟩ := h w List.mem_cons_self
    obtain ⟨chunks, hchunks, hmap, hcontent⟩ := ih (index + 1) fun w hw => h w (List.mem_cons_of_mem _ hw)
    obtain ⟨c, hc, hwindow, htext⟩ : ∃ c, ofWindow? document lines language chunker label index total w = some c ∧
        c.window = w ∧ c.content = slice := by
      rw [ofWindow?, hslice]
      exact ⟨_, rfl, rfl, rfl⟩
    refine ⟨c :: chunks, by rw [assembleFrom, hc, hchunks], by rw [List.map_cons, hwindow, hmap], ?_⟩
    intro d hd
    rcases List.mem_cons.1 hd with rfl | hd
    · have hspan : d.span = w.span := congrArg Window.span hwindow
      rw [hspan, hslice, htext]
    · exact hcontent d hd

theorem Chunk.map_span_of_map_window {chunks : List Chunk} (h : chunks.map window = windows) :
    chunks.map span = windows.map (·.span) := by
  rw [← h, List.map_map]
  rfl

namespace Chunker

/-- **Cutting by a table that fits the document succeeds**, and each window of the table becomes a chunk. -/
theorem exists_cutWith {table : CutTable} (hf : table.Fits document.content) (size overlap : Nat)
    (language chunker : String) (label : Span → Label) :
    ∃ windows chunks, table.windows document.content (Budget.ofSizes size overlap) = some windows ∧
      cutWith table document size overlap language chunker label = .ok chunks ∧ chunks.map Chunk.window = windows ∧
      ∀ c ∈ chunks, document.content.slice? c.span = some c.content := by
  obtain ⟨windows, hwindows, hcover⟩ := hf.exists_windows (Budget.ofSizes size overlap)
  have hslices : ∀ w ∈ windows, ∃ slice, document.content.slice? w.span = some slice := by
    intro w hw
    obtain ⟨slice, hslice, -⟩ := hcover.slices w.span (List.mem_map_of_mem hw)
    exact ⟨slice, hslice⟩
  obtain ⟨chunks, hchunks, hmap, hcontent⟩ := Chunk.exists_assembleFrom (LineTable.ofText document.content) language
    chunker label 0 windows.length hslices
  exact ⟨windows, chunks, hwindows, cutWith_eq_ok hwindows hchunks, hmap, hcontent⟩

end Chunker
end Chunkwise
