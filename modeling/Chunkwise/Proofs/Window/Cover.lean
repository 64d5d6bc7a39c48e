import Chunkwise.Proofs.Window.Run

/-!
# Windows lose nothing

Windows follow each other in their starts and in their ends, and what lies outside them is blank
(`Fits.exists_windows`). Along a run this is carried by the blank stretch behind the last window: a blank span makes
it longer, a window ends it (`Run.gaps_blank`).
-/

namespace Chunkwise

/-- The stretches outside spans: before the first one, between successive ones, and behind the last one. -/
def Span.gaps (start stop : Nat) : List Span → List Span
  | [] => [⟨start, stop⟩]
  | s :: rest => ⟨start, s.start⟩ :: gaps s.stop stop rest

/-- What spans must be for nothing of a text to lie outside them. -/
structure Text.CoveredBy (text : Text) (spans : List Span) : Prop where
  /-- The spans are slices of the text, and none is blank. -/
  slices : ∀ s ∈ spans, ∃ slice, text.slice? s = some slice ∧ ¬ slice.isBlank
  starts : spans.Pairwise fun a b => a.start ≤ b.start
  stops : spans.Pairwise fun a b => a.stop < b.stop
  /-- What stands before them, between them or behind them is blank. -/
  gaps : ∀ g ∈ Span.gaps 0 text.byteLen spans, g.start ≤ g.stop → ∃ slice, text.slice? g = some slice ∧ slice.isBlank
  /-- Every character that is not blank lies in one of them. -/
  chars : ∀ pos c, text.charAt? pos = some c → ¬ isBlankChar c →
    ∃ s ∈ spans, s.start ≤ pos ∧ pos + c.utf8Size ≤ s.stop

theorem Text.coveredBy_nil {text : Text} (h : text.isBlank) : text.CoveredBy [] where
  slices := fun s hs => by cases hs
  starts := List.Pairwise.nil
  stops := List.Pairwise.nil
  gaps := by
    intro g hg _
    rw [List.mem_singleton.1 hg]
    exact ⟨text, Text.slice?_all text, h⟩
  chars := by
    intro pos c hpos hnot
    obtain ⟨i, -, hc⟩ := Text.charAt?_eq_some_iff.1 hpos
    exact absurd (List.all_eq_true.1 h c (List.mem_of_getElem? hc)) hnot

theorem Text.CoveredBy.ne_nil {text : Text} {spans : List Span} (h : text.CoveredBy spans) (hblank : ¬ text.isBlank) :
    spans ≠ [] := by
  rintro rfl
  obtain ⟨c, hc, hnot⟩ : ∃ c ∈ text, ¬ isBlankChar c := by simpa [Text.isBlank] using hblank
  obtain ⟨i, hi⟩ := List.mem_iff_getElem?.1 hc
  obtain ⟨s, hs, -⟩ := h.chars _ c (Text.charAt?_eq_some_iff.2 ⟨i, rfl, hi⟩) hnot
  cases hs

namespace CutTable

variable {table : CutTable} {text : Text} {budget : Budget} {i j k p : Nat} {spans : List Span}

def windowSpans (text : Text) (budget : Budget) (spans : List Span) : List Span :=
  (spans.filterMap (windowOf? text budget)).map (·.span)

theorem windowSpans_cons_blank (hij : i ≤ j) (h : Text.BlankFrom text i j) :
    windowSpans text budget (⟨text.offset i, text.offset j⟩ :: spans) = windowSpans text budget spans := by
  rw [windowSpans, List.filterMap_cons_none ((windowOf?_offset hij).2 h), ← windowSpans]

theorem windowSpans_cons_of_not_blank (hij : i ≤ j) (h : ¬ Text.BlankFrom text i j) :
    windowSpans text budget (⟨text.offset i, text.offset j⟩ :: spans) =
      ⟨text.offset i, text.offset j⟩ :: windowSpans text budget spans := by
  have hw : windowOf? text budget ⟨text.offset i, text.offset j⟩ =
      some ⟨⟨text.offset i, text.offset j⟩, budget.maxChars < ((text.drop i).take (j - i)).length⟩ :=
    windowOf?_eq_some_iff.2 ⟨_, Text.slice?_offset hij, mt Text.isBlank_take_drop.1 h, rfl⟩
  rw [windowSpans, List.filterMap_cons_some hw, List.map_cons, ← windowSpans]

/-- The windows are some of the spans, in their order. -/
theorem windowSpans_sublist (spans : List Span) : (windowSpans text budget spans).Sublist spans := by
  induction spans with
  | nil => exact List.Sublist.refl _
  | cons s spans ih =>
    rw [windowSpans, List.filterMap_cons]
    cases hw : windowOf? text budget s with
    | none => exact ih.cons s
    | some w =>
      obtain ⟨-, -, -, rfl⟩ := windowOf?_eq_some_iff.1 hw
      exact ih.cons_cons s

/-! ## Along a run -/

theorem Run.pairwise (h : Run table text budget i j spans) :
    spans.Pairwise fun a b => a.start ≤ b.start ∧ a.stop < b.stop := by
  induction h with
  | done => exact List.Pairwise.nil
  | @cut i j i' j' rest hr hj hstep hrest ih =>
    refine List.pairwise_cons.2 ⟨fun s hs => ?_, ih⟩
    obtain ⟨m, n, rfl, hm, -, hn, hle⟩ := hrest.bounds hs
    exact ⟨Text.offset_le_offset text (by omega), Text.offset_lt_offset hn hle⟩

/-- Behind a blank stretch that reaches what is covered, only blank stretches lie outside the windows of a run. -/
theorem Run.gaps_blank (h : Run table text budget i j spans) (hle : p ≤ text.length) (hp : p ≤ j)
    (hblank : Text.BlankFrom text p j) :
    ∀ g ∈ Span.gaps (text.offset p) text.byteLen (windowSpans text budget spans),
      ∃ m n, g = ⟨text.offset m, text.offset n⟩ ∧ m ≤ text.length ∧ Text.BlankFrom text m n := by
  induction h generalizing p with
  | done hj =>
    intro g hg
    rw [List.mem_singleton.1 hg]
    refine ⟨p, text.length, ?_, hle, hblank.mono (Nat.le_refl _) hj⟩
    rw [Text.offset_length]
  | @cut i j i' j' rest hr hj hstep _ ih =>
    obtain ⟨-, hi', hlt, hj'⟩ := hstep.bounds hr hj
    by_cases hspan : Text.BlankFrom text i' j'
    · rw [windowSpans_cons_blank (by omega) hspan]
      -- The span begins in what is covered, so that the two blank stretches meet.
      have hlonger : Text.BlankFrom text p j' := hblank.trans (hspan.mono hi' (Nat.le_refl _))
      exact ih hle (by omega) hlonger
    · rw [windowSpans_cons_of_not_blank (by omega) hspan]
      intro g hg
      rcases List.mem_cons.1 hg with rfl | hg
      · exact ⟨p, i', rfl, hle, hblank.mono (Nat.le_refl _) hi'⟩
      · exact ih hj' (Nat.le_refl _) (Text.blankFrom_self text j') g hg

/-- A character behind what is covered is in a window of the run, unless it is blank. -/
theorem Run.exists_window (h : Run table text budget i j spans) (hk : j ≤ k) {c : Char} (hc : text[k]? = some c)
    (hblank : ¬ isBlankChar c) :
    ∃ m n, ⟨text.offset m, text.offset n⟩ ∈ windowSpans text budget spans ∧ m ≤ k ∧ k < n := by
  induction h with
  | done hj =>
    have hlt : k < text.length := (List.getElem?_eq_some_iff.1 hc).1
    omega
  | @cut i j i' j' rest hr hj hstep _ ih =>
    obtain ⟨-, hi', hlt, hle⟩ := hstep.bounds hr hj
    rcases Nat.lt_or_ge k j' with hin | hout
    · have hspan : ¬ Text.BlankFrom text i' j' := fun hspan => hblank (hspan k c (by omega) hin hc)
      rw [windowSpans_cons_of_not_blank (by omega) hspan]
      exact ⟨i', j', List.mem_cons_self, by omega, hin⟩
    · obtain ⟨m, n, hmem, hmk, hkn⟩ := ih hout
      refine ⟨m, n, ?_, hmk, hkn⟩
      by_cases hspan : Text.BlankFrom text i' j'
      · rwa [windowSpans_cons_blank (by omega) hspan]
      · rw [windowSpans_cons_of_not_blank (by omega) hspan]
        exact List.mem_cons_of_mem _ hmem

/-- **A table that fits its text cuts it into windows that lose nothing.** -/
theorem Fits.exists_windows (hf : table.Fits text) (budget : Budget) :
    ∃ windows, table.windows text budget = some windows ∧ text.CoveredBy (windows.map (·.span)) := by
  obtain ⟨spans, -, hrun, hwindows⟩ := hf.exists_cuts budget
  have hsub : (windowSpans text budget spans).Sublist spans := windowSpans_sublist spans
  have hpair := hrun.pairwise.sublist hsub
  refine ⟨_, hwindows, ?_, hpair.imp And.left, hpair.imp And.right, ?_, ?_⟩
  · intro s hs
    obtain ⟨w, hw, rfl⟩ := List.mem_map.1 hs
    exact (exists_of_mem_windows hw).2.1
  · intro g hg hle
    have hall := hrun.gaps_blank (Nat.zero_le _) (Nat.le_refl _) (Text.blankFrom_self text 0)
    rw [Text.offset_zero] at hall
    obtain ⟨m, n, rfl, hm, hblank⟩ := hall g hg
    have hmn : m ≤ n := (Text.offset_le_iff hm).1 hle
    exact ⟨_, Text.slice?_offset hmn, Text.isBlank_take_drop.2 hblank⟩
  · intro pos c hpos hblank
    obtain ⟨k, rfl, hc⟩ := Text.charAt?_eq_some_iff.1 hpos
    obtain ⟨m, n, hmem, hmk, hkn⟩ := hrun.exists_window (Nat.zero_le k) hc hblank
    refine ⟨_, hmem, Text.offset_le_offset text hmk, ?_⟩
    rw [← Text.offset_succ hc]
    exact Text.offset_le_offset text hkn

end CutTable
end Chunkwise
