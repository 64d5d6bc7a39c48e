import Chunkwise.Proofs.Window.Run

/-!
# What makes a window oversized

A window is marked as oversized exactly if it has more characters than the budget admits, and only a span to keep
whole that does not fit the budget by itself makes it so (`Fits.exists_sized_windows`). Such a window ends with the
span, and what it has before the span is overlap.
-/

namespace Chunkwise

/-- A window that ends with a span too long for the budget, and has nothing before it but overlap. -/
structure Window.HeldBy (w : Window) (text : Text) (budget : Budget) (s : Span) : Prop where
  stop_eq : w.span.stop = s.stop
  long : budget.maxChars < text.charsIn s
  start_le : w.span.start ≤ s.start
  /-- What stands before the span is a slice of the text, not longer than the overlap. -/
  lead : ∃ slice, text.slice? ⟨w.span.start, s.start⟩ = some slice ∧ slice.length ≤ budget.overlapChars

/-- A window whose mark tells whether its slice has more characters than the budget admits. -/
def Window.Marked (w : Window) (text : Text) (budget : Budget) : Prop :=
  ∃ slice, text.slice? w.span = some slice ∧ (w.oversized ↔ budget.maxChars < slice.length)

namespace CutTable

variable {table : CutTable} {text : Text} {budget : Budget} {i j i' j' : Nat} {spans : List Span}

theorem marked_of_mem_windows {w : Window} (h : w ∈ spans.filterMap (windowOf? text budget)) :
    w.Marked text budget := by
  obtain ⟨-, ⟨slice, hslice, -⟩, hover⟩ := exists_of_mem_windows h
  rw [Text.charsIn_of_slice? hslice] at hover
  exact ⟨slice, hslice, hover⟩

/-- A step to more characters than the budget admits ends with a span to keep whole. -/
theorem Step.heldBy (h : Step table text budget i j i' j') (hf : table.Fits text) (hr : Ready table text budget i j)
    (hj : j < text.length) {w : Window} (hspan : w.span = ⟨text.offset i', text.offset j'⟩)
    (hlong : budget.maxChars < text.charsIn w.span) : ∃ s ∈ table.solid, w.HeldBy text budget s := by
  obtain ⟨-, hi', hlt, hle⟩ := h.bounds hr hj
  have hij := hr.start_le
  have hoverlap := hr.overlap
  rw [hspan, Text.charsIn_offset (by omega) hle] at hlong
  rcases h.fits_or_solid hf hr with hfits | ⟨s, hs, rfl, hsolid, rfl⟩
  · omega
  · refine ⟨_, hs, ?_, ?_, ?_, ?_⟩
    · rw [hspan]
    · rw [Text.charsIn_offset (by omega) hle]
      omega
    · rw [hspan]
      exact Text.offset_le_offset text hij
    · rw [hspan]
      refine ⟨_, Text.slice?_offset hij, ?_⟩
      rw [List.length_take]
      omega

/-- **Only a span to keep whole that does not fit the budget makes a window oversized.** -/
theorem Fits.exists_sized_windows (hf : table.Fits text) (budget : Budget) :
    ∃ windows, table.windows text budget = some windows ∧ (∀ w ∈ windows, w.Marked text budget) ∧
      ∀ w ∈ windows, w.oversized → ∃ s ∈ table.solid, w.HeldBy text budget s := by
  obtain ⟨spans, -, hrun, hwindows⟩ := hf.exists_cuts budget
  refine ⟨_, hwindows, fun w hw => marked_of_mem_windows hw, ?_⟩
  intro w hw hover
  obtain ⟨hmem, -, hlong⟩ := exists_of_mem_windows hw
  obtain ⟨m, n, m', n', hr, hn, hstep, hspan⟩ := hrun.exists_step hmem
  exact hstep.heldBy hf hr hn hspan (hlong.1 hover)

end CutTable
end Chunkwise
