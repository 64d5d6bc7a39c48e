import Chunkwise.Proofs.Window.Step

/-!
# Runs of cutting

`cuts` lists all the spans that a text is cut into, the blank ones too; the windows are those of them that are not
blank (`windows_eq`). Where a table fits its text, cutting comes to an end and its spans are a `Run` of steps
(`Fits.exists_run`). What every step keeps holds all along a run, and each of its spans is made by a step from a
state that is `Ready` (`Run.exists_step`).
-/

namespace Chunkwise
namespace CutTable

variable {table : CutTable} {text : Text} {budget : Budget} {i j i' j' : Nat}
variable {span : Span} {spans before after : List Span}

/-- The spans that follow a text covered so far, the blank ones too. -/
def cutsFrom (table : CutTable) (text : Text) (budget : Budget) (start covered : Nat) : Option (List Span) :=
  if _hc : covered < text.byteLen then
    match table.nextSpan text budget start covered with
    | none => none
    | some span =>
      if _hs : covered < span.stop then
        match text.slice? span, text.retreat? span.stop budget.overlapChars with
        | some _, some back => (cutsFrom table text budget (max back span.start) span.stop).map (span :: ·)
        | _, _ => none
      else none
  else some []
termination_by text.byteLen - covered
decreasing_by omega

/-- The spans that a text is cut into, the blank ones too. -/
def cuts (table : CutTable) (text : Text) (budget : Budget) : Option (List Span) := table.cutsFrom text budget 0 0

/-- The window of a span, unless it is blank. -/
def windowOf? (text : Text) (budget : Budget) (span : Span) : Option Window :=
  (text.slice? span).bind fun slice => if slice.isBlank then none else some ⟨span, budget.maxChars < slice.length⟩

/-- The windows are the spans that are not blank. -/
theorem windowsFrom_eq (table : CutTable) (text : Text) (budget : Budget) (start covered : Nat) :
    table.windowsFrom text budget start covered =
      (table.cutsFrom text budget start covered).map (List.filterMap (windowOf? text budget)) := by
  fun_induction cutsFrom table text budget start covered with
  | case1 start covered hc hnext =>
    rw [windowsFrom, dif_pos hc, hnext]
    rfl
  | case2 start covered hc span hnext hs slice back hback hslice ih =>
    rw [windowsFrom, dif_pos hc, hnext]
    simp only [dif_pos hs, hslice, hback, ih, Option.map_map]
    congr 1
    funext rest
    simp only [Function.comp_apply, List.filterMap_cons, windowOf?, hslice, Option.bind_some]
    split <;> rfl
  | case3 start covered hc span hnext hs =>
    rw [windowsFrom, dif_pos hc, hnext]
    simp only [dif_pos hs]
    rfl
  | case4 start covered hc span hnext hs =>
    rw [windowsFrom, dif_pos hc, hnext]
    simp only [dif_neg hs]
    rfl
  | case5 start covered hc =>
    rw [windowsFrom, dif_neg hc]
    rfl

theorem windows_eq (table : CutTable) (text : Text) (budget : Budget) :
    table.windows text budget = (table.cuts text budget).map (List.filterMap (windowOf? text budget)) :=
  table.windowsFrom_eq text budget 0 0

/-! ## Runs -/

/-- The spans are those of steps, one after the other, from a text covered up to its `j`-th character. -/
inductive Run (table : CutTable) (text : Text) (budget : Budget) : Nat → Nat → List Span → Prop
  | done {i j : Nat} : text.length ≤ j → Run table text budget i j []
  | cut {i j i' j' : Nat} {rest : List Span} : Ready table text budget i j → j < text.length →
      Step table text budget i j i' j' → Run table text budget (max (j' - budget.overlapChars) i') j' rest →
      Run table text budget i j (⟨text.offset i', text.offset j'⟩ :: rest)

/-- **Cutting comes to an end, by steps.** -/
theorem Fits.exists_run (hf : table.Fits text) (hr : Ready table text budget i j) :
    ∃ spans, table.cutsFrom text budget (text.offset i) (text.offset j) = some spans ∧
      Run table text budget i j spans := by
  -- Each step covers more of the text.
  induction hm : text.length - j using Nat.strongRecOn generalizing i j with
  | _ m ih =>
    rcases Nat.lt_or_ge j text.length with hj | hj
    · obtain ⟨i', j', hstep, hnext⟩ := hf.exists_step hr hj
      obtain ⟨-, hi', hlt, hle⟩ := hstep.bounds hr hj
      obtain ⟨rest, hrest, hrun⟩ := ih (text.length - j') (by omega) (hstep.ready hf hr hj) rfl
      refine ⟨⟨text.offset i', text.offset j'⟩ :: rest, ?_, .cut hr hj hstep hrun⟩
      have hc : text.offset j < text.byteLen := by
        rw [← Text.offset_length]
        exact Text.offset_lt_offset hj (Nat.le_refl _)
      rw [cutsFrom, dif_pos hc, hnext]
      simp only [dif_pos (Text.offset_lt_offset hlt hle), Text.slice?_offset (show i' ≤ j' by omega),
        Text.retreat?_offset hle, Text.max_offset, hrest, Option.map_some]
    · refine ⟨[], ?_, .done hj⟩
      rw [cutsFrom, dif_neg]
      rw [Text.offset_of_length_le hj]
      exact Nat.lt_irrefl _

/-- A table that fits cuts its text into the spans of a run, and the windows are those that are not blank. -/
theorem Fits.exists_cuts (hf : table.Fits text) (budget : Budget) :
    ∃ spans, table.cuts text budget = some spans ∧ Run table text budget 0 0 spans ∧
      table.windows text budget = some (spans.filterMap (windowOf? text budget)) := by
  obtain ⟨spans, hcuts, hrun⟩ := hf.exists_run (ready_zero table text budget)
  rw [Text.offset_zero] at hcuts
  exact ⟨spans, hcuts, hrun, by rw [windows_eq, cuts, hcuts, Option.map_some]⟩

/-- A run goes on behind each of its spans. -/
theorem Run.split (h : Run table text budget i j (before ++ span :: after)) :
    ∃ m n m' n', Ready table text budget m n ∧ n < text.length ∧ Step table text budget m n m' n' ∧
      span = ⟨text.offset m', text.offset n'⟩ ∧
      Run table text budget (max (n' - budget.overlapChars) m') n' after := by
  induction before generalizing i j with
  | nil =>
    cases h with
    | cut hr hj hstep hrest => exact ⟨i, j, _, _, hr, hj, hstep, rfl, hrest⟩
  | cons _ before ih =>
    cases h with
    | cut _ _ _ hrest => exact ih hrest

theorem Run.exists_step (h : Run table text budget i j spans) (hspan : span ∈ spans) :
    ∃ m n m' n', Ready table text budget m n ∧ n < text.length ∧ Step table text budget m n m' n' ∧
      span = ⟨text.offset m', text.offset n'⟩ := by
  obtain ⟨before, after, rfl⟩ := List.append_of_mem hspan
  obtain ⟨m, n, m', n', hr, hn, hstep, hspan, -⟩ := h.split
  exact ⟨m, n, m', n', hr, hn, hstep, hspan⟩

/-- The spans of a run do not begin before the run, and end behind what it found covered. -/
theorem Run.bounds (h : Run table text budget i j spans) (hspan : span ∈ spans) :
    ∃ m n, span = ⟨text.offset m, text.offset n⟩ ∧ i ≤ m ∧ m ≤ n ∧ j < n ∧ n ≤ text.length := by
  induction h with
  | done => cases hspan
  | @cut i j i' j' rest hr hj hstep _ ih =>
    obtain ⟨hi', hi'j, hlt, hle⟩ := hstep.bounds hr hj
    rcases List.mem_cons.1 hspan with rfl | hspan
    · exact ⟨i', j', rfl, hi', by omega, hlt, hle⟩
    · obtain ⟨m, n, hmn, hm, hmn', hn, hnle⟩ := ih hspan
      exact ⟨m, n, hmn, by omega, hmn', by omega, hnle⟩

/-- What every step keeps of the covered position holds of the end of every span. -/
theorem Run.invariant {P : Nat → Prop} (h : Run table text budget i j spans) (hj : P j)
    (hstep : ∀ i j i' j', Ready table text budget i j → j < text.length → Step table text budget i j i' j' →
      P j → P j') (hspan : span ∈ spans) : ∃ n ≤ text.length, span.stop = text.offset n ∧ P n := by
  induction h with
  | done => cases hspan
  | @cut i j i' j' rest hr hlt hcut _ ih =>
    have hj' := hstep i j i' j' hr hlt hcut hj
    rcases List.mem_cons.1 hspan with rfl | hspan
    · exact ⟨j', (hcut.bounds hr hlt).2.2.2, rfl, hj'⟩
    · exact ih hj' hspan

/-! ## Windows of a run -/

theorem windowOf?_eq_some_iff {window : Window} : windowOf? text budget span = some window ↔
    ∃ slice, text.slice? span = some slice ∧ ¬ slice.isBlank ∧ window = ⟨span, budget.maxChars < slice.length⟩ := by
  rw [windowOf?, Option.bind_eq_some_iff]
  constructor
  · rintro ⟨slice, hslice, h⟩
    split at h
    · cases h
    · rename_i hblank
      exact ⟨slice, hslice, hblank, (Option.some.inj h).symm⟩
  · rintro ⟨slice, hslice, hblank, rfl⟩
    exact ⟨slice, hslice, if_neg hblank⟩

theorem windowOf?_offset (hij : i ≤ j) :
    windowOf? text budget ⟨text.offset i, text.offset j⟩ = none ↔ Text.BlankFrom text i j := by
  rw [windowOf?, Text.slice?_offset hij, Option.bind_some, ← Text.isBlank_take_drop]
  split <;> simp_all

/-- A window is a span that is not blank, with the mark for more characters than the budget admits. -/
theorem exists_of_mem_windows {window : Window} (h : window ∈ spans.filterMap (windowOf? text budget)) :
    window.span ∈ spans ∧ (∃ slice, text.slice? window.span = some slice ∧ ¬ slice.isBlank) ∧
      (window.oversized ↔ budget.maxChars < text.charsIn window.span) := by
  obtain ⟨span, hspan, hwindow⟩ := List.mem_filterMap.1 h
  obtain ⟨slice, hslice, hblank, rfl⟩ := windowOf?_eq_some_iff.1 hwindow
  refine ⟨hspan, ⟨slice, hslice, hblank⟩, ?_⟩
  rw [Text.charsIn_of_slice? hslice]
  exact decide_eq_true_iff

end CutTable
end Chunkwise
