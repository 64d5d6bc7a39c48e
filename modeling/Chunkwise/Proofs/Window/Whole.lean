import Chunkwise.Proofs.CutPlan.Request
import Chunkwise.Proofs.Window.Levels

/-!
# What no cut falls into is whole in a window

Whatever the marks of a table are, what is chosen next (`Choice`) begins in what is covered (`Choice.start_le`) and ends
in no span to keep whole (`Choice.clear`). The first cut that ends behind the start of a stretch therefore holds the
whole stretch, if no cut ends inside it (`exists_cut_over`), and it is a window unless the stretch is blank
(`exists_window_over`). So each span to keep whole is whole in a window (`kept_spans_stay_whole`), and so is what fits
the budget between neighbours (`uncutBy_of_neighbours`).
-/

namespace Chunkwise

/-- Whether none of some spans ends strictly inside a span. -/
def Span.UncutBy (span : Span) (cuts : List Span) : Prop := ∀ s ∈ cuts, ¬ (span.start < s.stop ∧ s.stop < span.stop)

/-- What lies inside a span that is not cut is not cut. -/
theorem Span.UncutBy.mono {inner outer : Span} {cuts : List Span} (h : outer.UncutBy cuts)
    (hstart : outer.start ≤ inner.start) (hstop : inner.stop ≤ outer.stop) : inner.UncutBy cuts := by
  intro s hs hin
  exact h s hs ⟨by omega, by omega⟩

/-- Whether a span lies whole inside one of some spans. -/
def Span.WholeIn (span : Span) (cuts : List Span) : Prop := ∃ s ∈ cuts, s.start ≤ span.start ∧ span.stop ≤ s.stop

/-- Whether there is something in a span of a text that is not blank. -/
def Text.HasInk (text : Text) (span : Span) : Prop := ∃ slice, text.slice? span = some slice ∧ ¬ slice.isBlank

namespace Text

variable {text : Text} {span : Span}

/-- What lies around ink between positions has ink. -/
theorem HasInk.mono {inner outer : Span} (h : text.HasInk inner) (hstart : text.isBoundary outer.start)
    (hstop : text.isBoundary outer.stop) (hle : outer.start ≤ inner.start) (hge : inner.stop ≤ outer.stop) :
    text.HasInk outer := by
  obtain ⟨slice, hslice, hink⟩ := h
  obtain ⟨i, hi, histart⟩ := isBoundary_iff.1 hstart
  obtain ⟨j, hj, hjstop⟩ := isBoundary_iff.1 hstop
  obtain ⟨k, l, hkl, hl, rfl, rfl⟩ := exists_offset_of_slice? hslice
  simp only at hle hge
  have hij : i ≤ j := by
    rw [histart, offset_le_iff hi] at hle
    rw [hjstop, offset_le_iff hl] at hge
    omega
  have hslice' : text.slice? outer = some ((text.drop i).take (j - i)) := by
    obtain ⟨start, stop⟩ := outer
    simp only at histart hjstop
    rw [histart, hjstop]
    exact slice?_offset hij
  exact ⟨_, hslice', not_isBlank_of_encloses hslice hslice' ⟨hle, hge⟩ hink⟩

theorem HasInk.lt (h : text.HasInk span) : span.start < span.stop := by
  obtain ⟨slice, hslice, hink⟩ := h
  obtain ⟨i, j, hij, hj, rfl, rfl⟩ := exists_offset_of_slice? hslice
  rcases Nat.lt_or_eq_of_le hij with hlt | rfl
  · exact offset_lt_offset hlt hj
  · rw [Nat.sub_self, List.take_zero] at hink
    exact absurd rfl hink

/-- A blank text has no ink. -/
theorem not_hasInk_of_isBlank (h : text.isBlank) : ¬ text.HasInk span := by
  rintro ⟨slice, hslice, hink⟩
  obtain ⟨i, j, -, -, rfl, rfl⟩ := exists_offset_of_slice? hslice
  exact not_isBlank_of_encloses hslice (slice?_all _) ⟨Nat.zero_le _, offset_le_byteLen _ _⟩ hink h

end Text

namespace CutTable

variable {table : CutTable} {text : Text} {budget : Budget} {start covered reach pos a b : Nat}
variable {span : Span} {spans : List Span} {windows : List Window}

theorem mem_of_mem_candidates (h : pos ∈ table.candidates covered reach) :
    (∃ level ∈ table.levels, pos ∈ level) ∧ pos ≤ reach := by
  rcases table.candidates_cases covered reach with ⟨-, hnil⟩ | ⟨k, level, first, more, hc, hahead, hcons⟩
  · rw [hnil] at h
    cases h
  · rw [hcons, ← hahead] at h
    obtain ⟨hlevel, -, hle⟩ := mem_ahead.1 h
    exact ⟨⟨level, hc.mem_levels, hlevel⟩, hle⟩

theorem bare_of_candidates_eq_nil (h : table.candidates covered reach = []) : table.Bare covered reach := by
  rcases table.candidates_cases covered reach with ⟨hbare, -⟩ | ⟨k, level, first, more, -, -, hcons⟩
  · exact hbare
  · rw [hcons] at h
    cases h

/-! ## What is chosen -/

/-- What is chosen in any table, wherever its marks are. -/
inductive Choice (table : CutTable) (text : Text) (budget : Budget) (start covered : Nat) : Span → Prop
  /-- A mark in reach. -/
  | unit {reach stop : Nat} : stop ∈ table.candidates covered reach →
      Choice table text budget start covered ⟨start, stop⟩
  /-- A mark in reach, with the characters of the budget before it. -/
  | shortened {reach stop back : Nat} : text.advance? covered budget.maxChars = some reach →
      stop ∈ table.candidates covered reach → text.retreat? stop budget.maxChars = some back →
      Choice table text budget start covered ⟨max back start, stop⟩
  /-- The span to keep whole that what is covered ends in. -/
  | solid {s : Span} : s ∈ table.solid → s.covers covered → Choice table text budget start covered ⟨start, s.stop⟩
  /-- A position up to the reach, with no mark in reach and no span to keep whole around. -/
  | plain {reach stop : Nat} : table.Bare covered reach → (∀ s ∈ table.solid, ¬ s.covers covered) → covered ≤ stop →
      stop ≤ reach → Choice table text budget start covered ⟨start, stop⟩

theorem choice_of_nextSpan (hle : start ≤ covered) (h : table.nextSpan text budget start covered = some span) :
    Choice table text budget start covered span := by
  unfold nextSpan at h
  split at h
  · rename_i limit reach hlimit hreach
    split at h
    · rename_i first more hcand
      split at h
      · rename_i stop hlast
        cases h
        refine Choice.unit (show stop ∈ table.candidates covered reach from ?_)
        rw [hcand]
        exact (List.mem_filter.1 (List.mem_of_getLast? hlast)).1
      · obtain ⟨back, hback, rfl⟩ := Option.map_eq_some_iff.1 h
        refine .shortened hreach ?_ hback
        rw [hcand]
        exact List.mem_cons_self
    · rename_i hcand
      have hbare := bare_of_candidates_eq_nil hcand
      split at h
      · rename_i s hfind
        cases h
        exact .solid (List.mem_of_find?_eq_some hfind) (by simpa using List.find?_some hfind)
      · rename_i hfind
        have hfree := List.find?_eq_none.1 hfind
        split at h
        · obtain ⟨stop, hstop, rfl⟩ := Option.map_eq_some_iff.1 h
          exact .plain hbare hfree (Text.le_of_advance? hstop)
            (Text.advance?_le_advance? hstop hreach (Nat.le_refl _) budget.maxChars_pos)
        · rename_i hbehind
          cases h
          exact .plain hbare hfree (Nat.le_of_not_le hbehind)
            (Text.advance?_le_advance? hlimit hreach hle (Nat.le_refl _))
  · cases h

/-- A chosen span begins in what is covered. -/
theorem Choice.start_le (hle : start ≤ covered) (h : Choice table text budget start covered span) :
    span.start ≤ covered := by
  cases h with
  | unit => exact hle
  | shortened hreach hstop hback =>
    have hpos := budget.maxChars_pos
    exact Nat.max_le.2 ⟨Text.retreat?_le_of_le_advance? (by omega) hreach hback (mem_of_mem_candidates hstop).2, hle⟩
  | solid => exact hle
  | plain => exact hle

/-- A chosen span ends in no span to keep whole. -/
theorem Choice.clear (hs : table.Spares) (h : Choice table text budget start covered span) :
    ¬ CutPlan.inside table.solid span.stop := by
  have hmark : ∀ {reach pos}, pos ∈ table.candidates covered reach → ¬ CutPlan.inside table.solid pos := by
    intro reach pos hpos
    obtain ⟨⟨level, hlevel, hmem⟩, -⟩ := mem_of_mem_candidates hpos
    exact hs.clear level hlevel pos hmem
  cases h with
  | unit hstop => exact hmark hstop
  | shortened _ hstop => exact hmark hstop
  | @solid s hmem hcovers =>
    simp only [Span.covers_iff] at hcovers
    obtain ⟨level, hlevel, hpos⟩ := hs.edges s hmem s.stop (Or.inr rfl) (by omega)
    exact hs.clear level hlevel _ hpos
  | @plain reach stop hbare hfree hlt hle =>
    intro hin
    obtain ⟨s, hmem, hstart, hstop⟩ := CutPlan.inside_iff.1 hin
    rcases Nat.lt_or_ge covered s.start with hbehind | hbefore
    · -- The start of the span would be a cut in reach.
      obtain ⟨level, hlevel, hpos⟩ := hs.edges s hmem s.start (Or.inl rfl) (by omega)
      have hout := reach_lt_of_ahead_eq_nil (hbare level hlevel) hpos hbehind
      have hwithin : s.start < stop := hstart
      omega
    · refine hfree s hmem ?_
      simp only [Span.covers_iff]
      exact ⟨hbefore, Nat.lt_of_le_of_lt hlt hstop⟩

/-! ## Along all cuts -/

/-- No cut ends inside a span to keep whole. -/
theorem Spares.clear_of_mem_cutsFrom (hs : table.Spares) (hle : start ≤ covered)
    (h : table.cutsFrom text budget start covered = some spans) (hspan : span ∈ spans) :
    ¬ CutPlan.inside table.solid span.stop := by
  fun_induction cutsFrom table text budget start covered generalizing spans with
  | case1 => cases h
  | case2 start covered hc s hnext hlt slice back hback hslice ih =>
    obtain ⟨rest, hrest, rfl⟩ := Option.map_eq_some_iff.1 h
    rcases List.mem_cons.1 hspan with rfl | hspan
    · exact (choice_of_nextSpan hle hnext).clear hs
    · have hstart := (choice_of_nextSpan hle hnext).start_le hle
      have hback' := Text.retreat?_le hback
      exact ih (by omega) hrest hspan
  | case3 => cases h
  | case4 => cases h
  | case5 =>
    cases h
    cases hspan

/-- A stretch behind what is covered that no cut ends inside lies whole in one of the cuts. -/
theorem exists_cut_over (hle : start ≤ covered) (h : table.cutsFrom text budget start covered = some spans)
    (hcovered : covered ≤ span.start) (hlt : span.start < span.stop) (hstop : span.stop ≤ text.byteLen)
    (huncut : span.UncutBy spans) :
    ∃ s ∈ spans, s.start ≤ span.start ∧ span.stop ≤ s.stop ∧ ∃ slice, text.slice? s = some slice := by
  fun_induction cutsFrom table text budget start covered generalizing spans with
  | case1 => cases h
  | case2 start covered hc s hnext hs slice back hback hslice ih =>
    obtain ⟨rest, hrest, rfl⟩ := Option.map_eq_some_iff.1 h
    have hstart := (choice_of_nextSpan hle hnext).start_le hle
    rcases Nat.lt_or_ge span.start s.stop with hover | hbefore
    · -- The first cut that ends behind the start of the stretch does not end inside it.
      have := huncut s List.mem_cons_self
      exact ⟨s, List.mem_cons_self, by omega, by omega, slice, hslice⟩
    · have hback' := Text.retreat?_le hback
      obtain ⟨t, ht, hover⟩ := ih (by omega) hrest hbefore fun t ht => huncut t (List.mem_cons_of_mem _ ht)
      exact ⟨t, List.mem_cons_of_mem _ ht, hover⟩
  | case3 => cases h
  | case4 => cases h
  | case5 start covered hc => omega

/-- Windows are the cuts that are not blank; a stretch with something in it that no cut ends inside lies whole in one
of them. -/
theorem exists_window_over (h : table.cuts text budget = some spans) (huncut : span.UncutBy spans)
    (hink : text.HasInk span) :
    ∃ w ∈ spans.filterMap (windowOf? text budget), w.span.start ≤ span.start ∧ span.stop ≤ w.span.stop := by
  obtain ⟨slice, hslice, hblank⟩ := hink
  obtain ⟨i, j, hij, hj, rfl, rfl⟩ := Text.exists_offset_of_slice? hslice
  have hlt : i < j := by
    rcases Nat.lt_or_eq_of_le hij with hlt | rfl
    · exact hlt
    · simp [Text.isBlank] at hblank
  obtain ⟨s, hs, hstart, hstop, slice', hslice'⟩ := exists_cut_over (Nat.le_refl 0) h (Nat.zero_le _)
    (Text.offset_lt_offset hlt hj) (Text.offset_le_byteLen text j) huncut
  have hblank' := Text.not_isBlank_of_encloses hslice hslice' ⟨hstart, hstop⟩ hblank
  exact ⟨_, List.mem_filterMap.2 ⟨s, hs, windowOf?_eq_some_iff.2 ⟨slice', hslice', hblank', rfl⟩⟩, hstart, hstop⟩

theorem exists_cuts_of_windows (h : table.windows text budget = some windows) :
    ∃ spans, table.cuts text budget = some spans ∧ windows = spans.filterMap (windowOf? text budget) := by
  rw [windows_eq] at h
  obtain ⟨spans, hspans, rfl⟩ := Option.map_eq_some_iff.1 h
  exact ⟨spans, hspans, rfl⟩

/-- What no cut ends inside is not cut by the windows, and is whole in one of them if there is something in it. -/
theorem uncut_and_whole (h : table.cuts text budget = some spans) (huncut : span.UncutBy spans) :
    span.UncutBy ((spans.filterMap (windowOf? text budget)).map (·.span)) ∧
      (text.HasInk span → span.WholeIn ((spans.filterMap (windowOf? text budget)).map (·.span))) := by
  constructor
  · intro s hs
    obtain ⟨w, hw, rfl⟩ := List.mem_map.1 hs
    exact huncut _ (exists_of_mem_windows hw).1
  · intro hink
    obtain ⟨w, hw, hover⟩ := exists_window_over h huncut hink
    exact ⟨w.span, List.mem_map_of_mem hw, hover⟩

/-- What fits the budget between neighbours is not cut. -/
theorem uncutBy_of_neighbours {k : Nat} (hf : table.Fits text) (h : table.cuts text budget = some spans)
    (hn : table.Neighbours k a b) (hfit : text.charsIn ⟨a, b⟩ ≤ budget.maxChars) : Span.UncutBy ⟨a, b⟩ spans := by
  obtain ⟨cuts, hcuts, hrun, -⟩ := hf.exists_cuts budget
  obtain rfl := Option.some.inj (hcuts.symm.trans h)
  obtain ⟨i, hi, rfl⟩ := Text.isBoundary_iff.1 (hn.left.isBoundary hf)
  obtain ⟨j, hj, rfl⟩ := Text.isBoundary_iff.1 (hn.right.isBoundary hf)
  rw [Text.charsIn_offset hi hj] at hfit
  intro s hs
  obtain ⟨n, hnle, hstop, hout⟩ := hrun.invariant (P := fun n => ¬ (i < n ∧ n < j)) (by omega)
    (fun _ _ _ _ hr hlt hstep hout => hstep.not_between hf hr hlt hi hj hn (by omega) hout) hs
  rw [hstop, Text.offset_lt_iff hnle, Text.offset_lt_iff hj]
  exact hout

/-- A span that a plan keeps whole is not cut, wherever the marks of the plan are. -/
theorem uncutBy_of_mem_solid {plan : CutPlan} (hsolid : ∀ s ∈ plan.solid, s.SliceOf text)
    (h : (plan.table text.byteLen).cuts text budget = some spans) (hspan : span ∈ plan.solid) : span.UncutBy spans := by
  intro s hs hin
  refine (CutPlan.spares_table hsolid).clear_of_mem_cutsFrom (Nat.le_refl 0) h hs ?_
  exact (CutPlan.inside_mergedSolid plan s.stop).2 (CutPlan.inside_iff.2 ⟨span, hspan, hin⟩)

/-- **No window ends inside a span that was to be kept whole, and each of these with something in it is whole in a
window**, whatever else was asked for. The spans must stand on positions of the text; if the marks in the text do so
as well, cutting succeeds. -/
theorem kept_spans_stay_whole (text : Text) (requests : List CutPlan.Request) (budget : Budget)
    (hkeep : ∀ span, .keep span ∈ requests → text.isBoundary span.start ∧ text.isBoundary span.stop) :
    ((∀ r ∈ requests, ∀ level pos, r.Marks level pos → pos ≤ text.byteLen → text.isBoundary pos) →
      ∃ windows, ((CutPlan.ofRequests requests).table text.byteLen).windows text budget = some windows) ∧
    ∀ windows, ((CutPlan.ofRequests requests).table text.byteLen).windows text budget = some windows →
      ∀ span, .keep span ∈ requests →
        span.UncutBy (windows.map (·.span)) ∧ (text.HasInk span → span.WholeIn (windows.map (·.span))) := by
  have hsolid : ∀ s ∈ (CutPlan.ofRequests requests).solid, s.SliceOf text := by
    intro s hs
    obtain ⟨hs, hlt⟩ := CutPlan.keep_mem_of_mem_solid_ofRequests hs
    exact ⟨hlt, (hkeep s hs).1, (hkeep s hs).2⟩
  refine ⟨fun hmark => ?_, fun windows hwindows span hspan => ?_⟩
  · have hmarks : ∀ m ∈ (CutPlan.ofRequests requests).marks, m.2 ≤ text.byteLen → text.isBoundary m.2 := by
      intro m hm
      obtain ⟨r, hr, hmarked⟩ := CutPlan.mem_marks_ofRequests.1 hm
      exact hmark r hr m.1 m.2 hmarked
    obtain ⟨spans, -, -, hwindows⟩ := (CutPlan.fits_table hmarks hsolid).exists_cuts budget
    exact ⟨_, hwindows⟩
  · obtain ⟨spans, hcuts, rfl⟩ := exists_cuts_of_windows hwindows
    refine uncut_and_whole hcuts ?_
    rcases Nat.lt_or_ge span.start span.stop with hlt | hempty
    · exact uncutBy_of_mem_solid hsolid hcuts (CutPlan.mem_solid_ofRequests.2 ⟨_, hspan, rfl, hlt⟩)
    · -- Nothing is strictly inside an empty span.
      intro s _ hin
      omega

/-- A text with a character of two bytes. -/
def accentText : Text := ['a', 'é', ' ', 'b', 'c', 'd', '\n', 'e']

/-- Spans to keep that overlap, touch and lie inside another, with marks inside them and behind the text. -/
def accentRequests : List CutPlan.Request :=
  [.keep ⟨3, 6⟩, .mark 0 4, .keep ⟨1, 4⟩, .mark 1 7, .keep ⟨6, 8⟩, .keep ⟨4, 5⟩, .markAll 2 [1, 99]]

/-- With windows of two characters the spans that overlap make one oversized window; the one that touches them has
its own. -/
theorem kept_spans_stay_whole_accents :
    ((∀ span, .keep span ∈ accentRequests → accentText.isBoundary span.start ∧ accentText.isBoundary span.stop) ∧
        ∀ r ∈ accentRequests, ∀ level pos, r.Marks level pos → pos ≤ accentText.byteLen →
          accentText.isBoundary pos) ∧
      ((CutPlan.ofRequests accentRequests).table accentText.byteLen).windows accentText ⟨2, 1, by decide⟩ =
        some [⟨⟨0, 1⟩, false⟩, ⟨⟨0, 6⟩, true⟩, ⟨⟨6, 8⟩, false⟩, ⟨⟨7, 9⟩, false⟩] ∧
      ∀ span, .keep span ∈ accentRequests →
        span.UncutBy [⟨0, 1⟩, ⟨0, 6⟩, ⟨6, 8⟩, ⟨7, 9⟩] ∧
          (accentText.HasInk span → span.WholeIn [⟨0, 1⟩, ⟨0, 6⟩, ⟨6, 8⟩, ⟨7, 9⟩]) := by
  have hkeep : ∀ span, .keep span ∈ accentRequests →
      accentText.isBoundary span.start ∧ accentText.isBoundary span.stop := by
    intro span h
    simp only [accentRequests, List.mem_cons, CutPlan.Request.keep.injEq, reduceCtorEq, List.not_mem_nil, or_false,
      false_or] at h
    rcases h with rfl | rfl | rfl | rfl <;> decide
  have hmark : ∀ r ∈ accentRequests, ∀ level pos, r.Marks level pos → pos ≤ accentText.byteLen →
      accentText.isBoundary pos := by
    intro r hr level pos hmarked
    have hon : ∀ r ∈ accentRequests, r.On accentText := by decide
    exact (hon r hr).isBoundary hmarked
  have heval : ((CutPlan.ofRequests accentRequests).table accentText.byteLen).windows accentText ⟨2, 1, by decide⟩ =
      some [⟨⟨0, 1⟩, false⟩, ⟨⟨0, 6⟩, true⟩, ⟨⟨6, 8⟩, false⟩, ⟨⟨7, 9⟩, false⟩] := by
    have hmerged : (CutPlan.ofRequests accentRequests).mergedSolid = CutPlan.merge [⟨1, 4⟩, ⟨3, 6⟩, ⟨4, 5⟩, ⟨6, 8⟩] :=
      CutPlan.mergedSolid_of_perm (by decide +kernel) (by decide)
    rw [CutPlan.table, hmerged]
    decide +kernel
  exact ⟨⟨hkeep, hmark⟩, heval, (kept_spans_stay_whole accentText accentRequests ⟨2, 1, by decide⟩ hkeep).2 _ heval⟩

end CutTable
end Chunkwise
