import Chunkwise.Proofs.CutPlan.Request
import Chunkwise.Proofs.Window.Levels

/-!
# Greedy cutting is optimal without overlap

A `Division` of a text cuts it into slices that fit the budget and end at cuts of the coarsest level. Without overlap
a window begins where the text is covered up to. If a cut of the coarsest level is in reach from there, the window
ends at such a cut, and at none of them in reach that is farther (`Step.reaches`). Greedy cutting therefore stays ahead of
every division, slice by slice, and needs no more windows than the division has slices (`Run.length_le_of_division`).
Where what stands between neighbours fits the budget, its own cuts are a division (`Run.division`).
-/

namespace Chunkwise
namespace CutTable

variable {table : CutTable} {text : Text} {budget : Budget} {i j i' j' n pos : Nat} {level : List Nat}
variable {spans slices : List Span}

/-- Slices that follow each other from a position to the end of a text. Each of them fits the budget and ends at a cut
of the coarsest level. -/
inductive Division (table : CutTable) (text : Text) (budget : Budget) : Nat → List Span → Prop
  | done : Division table text budget text.byteLen []
  | slice {start stop : Nat} {slice : Text} {level : List Nat} {rest : List Span} :
      text.slice? ⟨start, stop⟩ = some slice → slice.length ≤ budget.maxChars →
      table.levels[0]? = some level → stop ∈ level → Division table text budget stop rest →
      Division table text budget start (⟨start, stop⟩ :: rest)

theorem markedUpTo_of_mem (hlevel : table.levels[0]? = some level) (hpos : pos ∈ level) : table.MarkedUpTo 0 pos :=
  Or.inr ⟨0, Nat.le_refl _, level, hlevel, hpos⟩

/-! ## Staying ahead -/

/-- **With a cut of the coarsest level in reach, a step without overlap goes to such a cut**, and not to a nearer one. -/
theorem Step.reaches (h : Step table text budget i j i' j') (hij : i = j) (hlevel : table.levels[0]? = some level)
    (hmem : text.offset n ∈ level) (hn : n ≤ text.length) (hlt : j < n) (hnear : n ≤ j + budget.maxChars) :
    i' = i ∧ n ≤ j' ∧ j' ≤ i + budget.maxChars ∧ text.offset j' ∈ level := by
  subst hij
  have hmarked : table.MarkedUpTo 0 (text.offset n) := markedUpTo_of_mem hlevel hmem
  have hahead : text.offset i < text.offset n := Text.offset_lt_offset hlt hn
  have hreach : text.offset n ≤ text.offset (i + budget.maxChars) := Text.offset_le_offset text hnear
  cases h with
  | @unit k level' stop hcoarsest hstop _ _ hfits hfarthest =>
    obtain rfl := Nat.le_zero.1 (hcoarsest.le_of_marked hmarked hahead hreach)
    obtain rfl := Option.some.inj (hlevel.symm.trans hcoarsest.level_eq)
    exact ⟨rfl, (Text.offset_le_iff hn).1 (hfarthest _ hmem hreach), hfits, hstop⟩
  | shortened _ _ _ hfar hnear => omega
  | solid hbare =>
    have := hbare.not_marked hmarked hahead
    omega
  | plain hbare =>
    have := hbare.not_marked hmarked hahead
    omega

/-- Without overlap a window begins where the text is covered up to. -/
theorem Ready.start_eq (hr : Ready table text budget i j) (hoverlap : budget.overlapChars = 0) : i = j := by
  have hle := hr.start_le
  have hlast := hr.overlap
  omega

/-- **Greedy cutting stays ahead**: a run that has come as far as a division needs no more spans than the division has
slices. -/
theorem Run.length_le_of_division (hoverlap : budget.overlapChars = 0) (hdiv : Division table text budget pos slices)
    (hrun : Run table text budget i j spans) (hle : pos ≤ text.offset j) : spans.length ≤ slices.length := by
  induction hdiv generalizing i j spans with
  | done =>
    cases hrun with
    | done => exact Nat.le_refl 0
    | cut _ hj =>
      have hbefore := Text.offset_lt_offset hj (Nat.le_refl _)
      rw [Text.offset_length] at hbefore
      omega
  | @slice start stop slice level rest hslice hfits hlevel hstop _ ih =>
    obtain ⟨m, n, hmn, hn, hspan, rfl⟩ := Text.exists_offset_of_slice? hslice
    obtain ⟨rfl, rfl⟩ := Span.mk.inj hspan
    rw [List.length_take, List.length_drop] at hfits
    rw [List.length_cons]
    rcases Nat.lt_or_ge j n with hahead | hbehind
    · cases hrun with
      | done => exact Nat.zero_le _
      | @cut _ _ i' j' spans hr hj hstep hrest =>
        have hmj : m ≤ j := (Text.offset_le_iff (Nat.le_trans hmn hn)).1 hle
        obtain ⟨-, hfar, -, -⟩ := hstep.reaches (hr.start_eq hoverlap) hlevel hstop hn hahead (by omega)
        exact Nat.succ_le_succ (ih hrest (Text.offset_le_offset text hfar))
    · -- The slice ends in what is covered, and the division is behind with one slice less.
      exact Nat.le_succ_of_le (ih hrun (Text.offset_le_offset text hbehind))

/-! ## A division by its own cuts -/

/-- Before the last position of the coarsest level each of its positions has a neighbour. -/
theorem exists_neighbour {last : Nat} (hasc : level.Pairwise (· < ·)) (hlevel : table.levels[0]? = some level)
    (hpos : table.MarkedUpTo 0 pos) (hlast : last ∈ level) (hlt : pos < last) :
    ∃ next ∈ level, table.Neighbours 0 pos next := by
  have hmem : last ∈ level.filter (pos < ·) := List.mem_filter.2 ⟨hlast, decide_eq_true hlt⟩
  cases hahead : level.filter (pos < ·) with
  | nil =>
    rw [hahead] at hmem
    cases hmem
  | cons next more =>
    have hnext : next ∈ level.filter (pos < ·) := by
      rw [hahead]
      exact List.mem_cons_self
    obtain ⟨hin, hbehind⟩ := List.mem_filter.1 hnext
    refine ⟨next, hin, hpos, markedUpTo_of_mem hlevel hin, of_decide_eq_true hbehind, fun other hother hgt => ?_⟩
    obtain ⟨k, hk, level', hlevel', hotherin⟩ := hother.exists_level hgt
    obtain rfl := Nat.le_zero.1 hk
    obtain rfl := Option.some.inj (hlevel.symm.trans hlevel')
    have hordered := hasc.filter (pos < ·)
    have hotherahead : other ∈ level.filter (pos < ·) := List.mem_filter.2 ⟨hotherin, decide_eq_true hgt⟩
    rw [hahead] at hordered hotherahead
    rcases List.mem_cons.1 hotherahead with rfl | hmore
    · exact Nat.le_refl _
    · exact Nat.le_of_lt ((List.pairwise_cons.1 hordered).1 other hmore)

/-- Where what stands between neighbours fits the budget, the spans of a run without overlap are a division. -/
theorem Run.division (hf : table.Fits text) (hoverlap : budget.overlapChars = 0) (hlevel : table.levels[0]? = some level)
    (hend : 0 < text.byteLen → text.byteLen ∈ level)
    (hfit : ∀ u v, table.Neighbours 0 u v → text.charsIn ⟨u, v⟩ ≤ budget.maxChars)
    (hrun : Run table text budget i j spans) (hj : j ≤ text.length) (hmarked : table.MarkedUpTo 0 (text.offset j)) :
    Division table text budget (text.offset j) spans := by
  induction hrun with
  | done hall =>
    rw [Text.offset_of_length_le hall]
    exact .done
  | @cut i j i' j' rest hr hlt hstep _ ih =>
    have hbefore : text.offset j < text.byteLen := by
      rw [← Text.offset_length]
      exact Text.offset_lt_offset hlt (Nat.le_refl _)
    obtain ⟨next, hin, hn⟩ := exists_neighbour (hf.ascending level (List.mem_of_getElem? hlevel)) hlevel hmarked
      (hend (Nat.zero_lt_of_lt hbefore)) hbefore
    obtain ⟨n, hnle, rfl⟩ := Text.isBoundary_iff.1 (hn.right.isBoundary hf)
    have hchars := hfit _ _ hn
    rw [Text.charsIn_offset hj hnle] at hchars
    have hahead : j < n := (Text.offset_lt_iff hnle).1 hn.lt
    obtain rfl := hr.start_eq hoverlap
    obtain ⟨rfl, -, hfits, hstop⟩ := hstep.reaches rfl hlevel hin hnle hahead (by omega)
    obtain ⟨-, -, hcovers, hle⟩ := hstep.bounds hr hlt
    refine .slice (Text.slice?_offset (Nat.le_of_lt hcovers)) ?_ hlevel hstop (ih hle (markedUpTo_of_mem hlevel hstop))
    rw [List.length_take]
    omega

/-! ## The fewest windows -/

/-- **Greedy cutting without overlap makes the fewest windows.** No division into slices that fit the budget and end at
cuts of the coarsest level has fewer slices; and where what stands between neighbours at that level fits the budget,
the cuts are such a division themselves. -/
theorem greedy_windows_are_fewest (text : Text) (requests : List CutPlan.Request) (budget : Budget)
    (hon : ∀ r ∈ requests, r.On text) (hoverlap : budget.overlapChars = 0) :
    ∃ spans windows, ((CutPlan.ofRequests requests).table text.byteLen).cuts text budget = some spans ∧
      ((CutPlan.ofRequests requests).table text.byteLen).windows text budget = some windows ∧
      (∀ slices, Division ((CutPlan.ofRequests requests).table text.byteLen) text budget 0 slices →
        windows.length ≤ slices.length) ∧
      ((∀ u v, ((CutPlan.ofRequests requests).table text.byteLen).Neighbours 0 u v →
          text.charsIn ⟨u, v⟩ ≤ budget.maxChars) →
        Division ((CutPlan.ofRequests requests).table text.byteLen) text budget 0 spans) := by
  have hf := CutPlan.fits_ofRequests hon
  obtain ⟨spans, hcuts, hrun, hwindows⟩ := hf.exists_cuts budget
  refine ⟨spans, _, hcuts, hwindows, fun slices hdiv => ?_, fun hfit => ?_⟩
  · calc (spans.filterMap (windowOf? text budget)).length
      _ ≤ spans.length := List.length_filterMap_le _ _
      _ ≤ slices.length := hrun.length_le_of_division hoverlap hdiv (Nat.zero_le _)
  · obtain ⟨level, hlevel, hmem⟩ := CutPlan.exists_coarsest_level (CutPlan.ofRequests requests) text.byteLen
    have hend : 0 < text.byteLen → text.byteLen ∈ level := fun hne =>
      (hmem _).2 ⟨Or.inr rfl, CutPlan.allowed_byteLen (CutPlan.sliceOf_ofRequests hon) hne⟩
    have hdivision := hrun.division hf hoverlap hlevel hend hfit (Nat.zero_le _) (Or.inl Text.offset_zero)
    rwa [Text.offset_zero] at hdivision

/-- Two lines with an empty line between them. -/
def spacedText : Text := ['a', 'b', '\n', '\n', 'c', 'd', '\n']

def spacedRequests : List CutPlan.Request := [.mark 0 3, .mark 0 4, .mark 1 5]

def spacedBudget : Budget := ⟨4, 0, by decide⟩

/-- The empty line goes with the first window. A division that gives it a slice of its own has one slice more. -/
theorem greedy_windows_are_fewest_spaced :
    ((∀ r ∈ spacedRequests, r.On spacedText) ∧ spacedBudget.overlapChars = 0 ∧
        Division ((CutPlan.ofRequests spacedRequests).table spacedText.byteLen) spacedText spacedBudget 0
          [⟨0, 3⟩, ⟨3, 4⟩, ⟨4, 7⟩] ∧
        ∀ u v, ((CutPlan.ofRequests spacedRequests).table spacedText.byteLen).Neighbours 0 u v →
          spacedText.charsIn ⟨u, v⟩ ≤ spacedBudget.maxChars) ∧
      ((CutPlan.ofRequests spacedRequests).table spacedText.byteLen).windows spacedText spacedBudget =
        some [⟨⟨0, 4⟩, false⟩, ⟨⟨4, 7⟩, false⟩] ∧
      [(⟨⟨0, 4⟩, false⟩ : Window), ⟨⟨4, 7⟩, false⟩].length ≤ [(⟨0, 3⟩ : Span), ⟨3, 4⟩, ⟨4, 7⟩].length ∧
      Division ((CutPlan.ofRequests spacedRequests).table spacedText.byteLen) spacedText spacedBudget 0
        [⟨0, 4⟩, ⟨4, 7⟩] := by
  have hon : ∀ r ∈ spacedRequests, r.On spacedText := by decide
  have hlevel : ((CutPlan.ofRequests spacedRequests).table spacedText.byteLen).levels[0]? = some [3, 4, 7] := by
    decide +kernel
  have hdiv : Division ((CutPlan.ofRequests spacedRequests).table spacedText.byteLen) spacedText spacedBudget 0
      [⟨0, 3⟩, ⟨3, 4⟩, ⟨4, 7⟩] := by
    refine .slice rfl ?_ hlevel ?_ (.slice rfl ?_ hlevel ?_ (.slice rfl ?_ hlevel ?_ .done)) <;> decide
  have hfit : ∀ u v, ((CutPlan.ofRequests spacedRequests).table spacedText.byteLen).Neighbours 0 u v →
      spacedText.charsIn ⟨u, v⟩ ≤ spacedBudget.maxChars := by
    intro u v hn
    have hmarks : ∀ pos, ((CutPlan.ofRequests spacedRequests).table spacedText.byteLen).MarkedUpTo 0 pos →
        pos ∈ [0, 3, 4, 7] := by
      rintro pos (rfl | ⟨n, hn, level, hlevel', hpos⟩)
      · exact List.mem_cons_self
      · rw [Nat.le_zero.1 hn, hlevel, Option.some.injEq] at hlevel'
        subst hlevel'
        exact List.mem_cons_of_mem _ hpos
    -- Of all pairs of marks only the two ends of the text do not fit, and they are no neighbours.
    have hinner : u < 3 → v ≤ 3 := hn.between 3 (markedUpTo_of_mem hlevel (by decide))
    have hpairs : ∀ u ∈ [0, 3, 4, 7], ∀ v ∈ [0, 3, 4, 7], (u < 3 → v ≤ 3) →
        spacedText.charsIn ⟨u, v⟩ ≤ spacedBudget.maxChars := by decide
    exact hpairs u (hmarks u hn.left) v (hmarks v hn.right) hinner
  have hcuts : ((CutPlan.ofRequests spacedRequests).table spacedText.byteLen).cuts spacedText spacedBudget =
      some [⟨0, 4⟩, ⟨4, 7⟩] := by decide +kernel
  have hwindows : ((CutPlan.ofRequests spacedRequests).table spacedText.byteLen).windows spacedText spacedBudget =
      some [⟨⟨0, 4⟩, false⟩, ⟨⟨4, 7⟩, false⟩] := by decide +kernel
  obtain ⟨spans, windows, hspans, hpacked, hfewest, hown⟩ :=
    greedy_windows_are_fewest spacedText spacedRequests spacedBudget hon rfl
  obtain rfl := Option.some.inj (hspans.symm.trans hcuts)
  obtain rfl := Option.some.inj (hpacked.symm.trans hwindows)
  exact ⟨⟨hon, rfl, hdiv, hfit⟩, hwindows, hfewest _ hdiv, hown hfit⟩

end CutTable
end Chunkwise
