import Chunkwise.Proofs.CutPlan.Table
import Chunkwise.Window

/-!
# One step of cutting

`Step` lists what the choice of the next window can do, on numbers of characters: take the farthest cut of the most
structural level in reach, shorten the overlap for the next unit, take a span to keep whole, or stop at the budget.
Where a table fits its text, every choice is one of these (`Fits.exists_step`), each keeps the invariant `Ready`
(`Step.ready`), and only a span to keep whole can make a window too long (`Step.fits_or_solid`).
-/

namespace Chunkwise
namespace CutTable

variable {table : CutTable} {text : Text} {budget : Budget} {level : List Nat} {i j i' j' pos covered reach : Nat}

theorem mem_ahead : pos ∈ ahead covered reach level ↔ pos ∈ level ∧ covered < pos ∧ pos ≤ reach := by
  simp [ahead]

/-- Where a level has nothing in reach, its positions that are not covered lie behind the reach. -/
theorem reach_lt_of_ahead_eq_nil (h : ahead covered reach level = []) (hpos : pos ∈ level) (hlt : covered < pos) :
    reach < pos := by
  rcases Nat.lt_or_ge reach pos with hle | hle
  · exact hle
  · have hmem : pos ∈ ahead covered reach level := mem_ahead.2 ⟨hpos, hlt, hle⟩
    rw [h] at hmem
    cases hmem

/-- No level has a position in reach. -/
def Bare (table : CutTable) (covered reach : Nat) : Prop := ∀ level ∈ table.levels, ahead covered reach level = []

/-- The `k`-th level has positions in reach, and none of the levels above it has. -/
structure CoarsestAt (table : CutTable) (covered reach k : Nat) (level : List Nat) : Prop where
  level_eq : table.levels[k]? = some level
  above : ∀ l ∈ table.levels.take k, ahead covered reach l = []

theorem CoarsestAt.mem_levels {k : Nat} (h : CoarsestAt table covered reach k level) : level ∈ table.levels :=
  List.mem_of_getElem? h.level_eq

/-- A search for the first level with positions in reach finds none, or those of the coarsest level. -/
theorem findSome?_ahead_cases {f : List Nat → Option (List Nat)}
    (hnil : ∀ level, ahead covered reach level = [] → f level = none)
    (hcons : ∀ level first more, ahead covered reach level = first :: more → f level = some (first :: more)) :
    (table.Bare covered reach ∧ (table.levels.findSome? f).getD [] = []) ∨
      ∃ k level first more, table.CoarsestAt covered reach k level ∧ ahead covered reach level = first :: more ∧
        (table.levels.findSome? f).getD [] = first :: more := by
  have hnone : ∀ level, f level = none → ahead covered reach level = [] := by
    intro level h
    cases hahead : ahead covered reach level with
    | nil => rfl
    | cons first more =>
      rw [hcons level first more hahead] at h
      cases h
  cases hfind : table.levels.findSome? f with
  | none => exact Or.inl ⟨fun level hl => hnone level (List.findSome?_eq_none_iff.1 hfind level hl), rfl⟩
  | some found =>
    obtain ⟨before, level, after, hlevels, hfound, hbefore⟩ := List.findSome?_eq_some_iff.1 hfind
    cases hahead : ahead covered reach level with
    | nil =>
      rw [hnil level hahead] at hfound
      cases hfound
    | cons first more =>
      have hsame : first :: more = found := Option.some.inj ((hcons level first more hahead).symm.trans hfound)
      refine Or.inr ⟨before.length, level, first, more, ⟨by rw [hlevels]; simp, ?_⟩, hahead, hsame.symm⟩
      intro l hl
      rw [hlevels, List.take_left] at hl
      exact hnone l (hbefore l hl)

/-- Nothing is in reach, or the candidates are those of the coarsest level. -/
theorem candidates_cases (table : CutTable) (covered reach : Nat) :
    (table.Bare covered reach ∧ table.candidates covered reach = []) ∨
      ∃ k level first more, table.CoarsestAt covered reach k level ∧ ahead covered reach level = first :: more ∧
        table.candidates covered reach = first :: more := by
  unfold candidates
  refine findSome?_ahead_cases (fun level h => ?_) (fun level first more h => ?_)
  · rw [h]
  · rw [h]

/-! ## The choices -/

/-- The next window begins at the `i'`-th character and ends behind the `j'`-th, if the text is covered up to the
`j`-th and the window would begin at the `i`-th with its full overlap. -/
inductive Step (table : CutTable) (text : Text) (budget : Budget) (i j : Nat) : Nat → Nat → Prop
  /-- The farthest cut within the budget, of the most structural level in reach. -/
  | unit {k : Nat} {level : List Nat} {stop : Nat}
      (coarsest : table.CoarsestAt (text.offset j) (text.offset (j + budget.maxChars)) k level)
      (mem : text.offset stop ∈ level) (ahead : j < stop) (le : stop ≤ text.length) (fits : stop ≤ i + budget.maxChars)
      (farthest : ∀ pos ∈ level, pos ≤ text.offset (i + budget.maxChars) → pos ≤ text.offset stop) :
      Step table text budget i j i stop
  /-- The nearest cut, which is in reach but not behind the full overlap. -/
  | shortened {k : Nat} {level : List Nat} {stop : Nat}
      (coarsest : table.CoarsestAt (text.offset j) (text.offset (j + budget.maxChars)) k level)
      (mem : text.offset stop ∈ level) (le : stop ≤ text.length) (far : i + budget.maxChars < stop)
      (near : stop ≤ j + budget.maxChars)
      (nearest : ∀ pos ∈ level, text.offset j < pos → text.offset stop ≤ pos) :
      Step table text budget i j (stop - budget.maxChars) stop
  /-- The end of the span to keep whole that holds the next character. -/
  | solid {span : Span} {stop : Nat} (bare : table.Bare (text.offset j) (text.offset (j + budget.maxChars)))
      (mem : span ∈ table.solid) (covers : span.start ≤ text.offset j) (ahead : j < stop) (le : stop ≤ text.length)
      (stop_eq : span.stop = text.offset stop) : Step table text budget i j i stop
  /-- The end of the budget. -/
  | plain (bare : table.Bare (text.offset j) (text.offset (j + budget.maxChars)))
      (free : ∀ span ∈ table.solid, span.start ≤ text.offset j → span.stop ≤ text.offset j) :
      Step table text budget i j i (min (i + budget.maxChars) text.length)

/-- What holds whenever a window is to be chosen: it would begin in what is covered, at most the overlap before its
end, and that end is in no span to keep whole. -/
structure Ready (table : CutTable) (text : Text) (budget : Budget) (i j : Nat) : Prop where
  start_le : i ≤ j
  covered_le : j ≤ text.length
  overlap : j ≤ i + budget.overlapChars
  clear : ¬ CutPlan.inside table.solid (text.offset j)

/-- Cutting begins at the start of the text. -/
theorem ready_zero (table : CutTable) (text : Text) (budget : Budget) : Ready table text budget 0 0 where
  start_le := Nat.le_refl _
  covered_le := Nat.zero_le _
  overlap := Nat.zero_le _
  clear := by
    intro hin
    obtain ⟨s, -, hs, -⟩ := CutPlan.inside_iff.1 hin
    rw [Text.offset_zero] at hs
    exact absurd hs (Nat.not_lt_zero _)

theorem le_of_mem_of_getLast? {l : List Nat} {last n : Nat} (h : l.Pairwise (· < ·)) (hlast : l.getLast? = some last)
    (hn : n ∈ l) : n ≤ last := by
  obtain ⟨front, rfl⟩ := List.getLast?_eq_some_iff.1 hlast
  rcases List.mem_append.1 hn with hn | hn
  · exact Nat.le_of_lt ((List.pairwise_append.1 h).2.2 n hn last List.mem_cons_self)
  · exact Nat.le_of_eq (List.mem_singleton.1 hn)

/-- The last position of the coarsest level in reach that is not behind the full window ends a step. -/
theorem CoarsestAt.step_unit {k stop : Nat} (hf : table.Fits text) (hr : Ready table text budget i j)
    (hc : table.CoarsestAt (text.offset j) (text.offset (j + budget.maxChars)) k level)
    (hlast : ((ahead (text.offset j) (text.offset (j + budget.maxChars)) level).filter
      (· ≤ text.offset (i + budget.maxChars))).getLast? = some stop) :
    ∃ j', stop = text.offset j' ∧ Step table text budget i j i j' := by
  have hasc := hf.ascending level hc.mem_levels
  have hij := hr.start_le
  obtain ⟨hstop, hlimit⟩ := List.mem_filter.1 (List.mem_of_getLast? hlast)
  obtain ⟨hlevel, hlt, -⟩ := mem_ahead.1 hstop
  obtain ⟨s, hs, rfl⟩ := Text.isBoundary_iff.1 (hf.positions level hc.mem_levels stop hlevel)
  have hfits : s ≤ i + budget.maxChars := (Text.offset_le_iff hs).1 (of_decide_eq_true hlimit)
  refine ⟨s, rfl, .unit hc hlevel ((Text.offset_lt_iff hs).1 hlt) hs hfits ?_⟩
  intro pos hpos hle
  rcases Nat.lt_or_ge (text.offset j) pos with hgt | hge
  · have hreach : pos ≤ text.offset (j + budget.maxChars) := Nat.le_trans hle (Text.offset_le_offset text (by omega))
    have hmem : pos ∈ ahead (text.offset j) (text.offset (j + budget.maxChars)) level :=
      mem_ahead.2 ⟨hpos, hgt, hreach⟩
    exact le_of_mem_of_getLast? ((hasc.filter _).filter _) hlast (List.mem_filter.2 ⟨hmem, decide_eq_true hle⟩)
  · omega

/-- If all of them are behind the full window, the first one ends a step with a shorter overlap. -/
theorem CoarsestAt.step_shortened {k first : Nat} {more : List Nat} (hf : table.Fits text)
    (hc : table.CoarsestAt (text.offset j) (text.offset (j + budget.maxChars)) k level)
    (hahead : ahead (text.offset j) (text.offset (j + budget.maxChars)) level = first :: more)
    (hfar : ∀ pos ∈ first :: more, ¬ pos ≤ text.offset (i + budget.maxChars)) :
    ∃ j', first = text.offset j' ∧ j' ≤ text.length ∧ i + budget.maxChars < j' ∧
      Step table text budget i j (j' - budget.maxChars) j' := by
  have hasc := hf.ascending level hc.mem_levels
  have hasc' : (first :: more).Pairwise (· < ·) := hahead ▸ hasc.filter _
  have hfirst : first ∈ ahead (text.offset j) (text.offset (j + budget.maxChars)) level := by
    rw [hahead]
    exact List.mem_cons_self
  obtain ⟨hlevel, -, hreach⟩ := mem_ahead.1 hfirst
  obtain ⟨s, hs, rfl⟩ := Text.isBoundary_iff.1 (hf.positions level hc.mem_levels first hlevel)
  have hbehind : i + budget.maxChars < s := by
    rcases Nat.lt_or_ge (i + budget.maxChars) s with h | h
    · exact h
    · exact absurd (Text.offset_le_offset text h) (hfar _ List.mem_cons_self)
  refine ⟨s, rfl, hs, hbehind, .shortened hc hlevel hs hbehind ((Text.offset_le_iff hs).1 hreach) ?_⟩
  intro pos hpos hlt
  rcases Nat.lt_or_ge (text.offset (j + budget.maxChars)) pos with hgt | hle
  · omega
  · have hmem : pos ∈ text.offset s :: more := by
      rw [← hahead]
      exact mem_ahead.2 ⟨hpos, hlt, hle⟩
    rcases List.mem_cons.1 hmem with rfl | hmem
    · exact Nat.le_refl _
    · exact Nat.le_of_lt ((List.pairwise_cons.1 hasc').1 pos hmem)

/-- With nothing in reach, the span to keep whole that holds the next character ends a step. -/
theorem Bare.step_solid {span : Span} (hf : table.Fits text)
    (hbare : table.Bare (text.offset j) (text.offset (j + budget.maxChars))) (hmem : span ∈ table.solid)
    (hcovers : span.covers (text.offset j)) :
    ∃ j', span.stop = text.offset j' ∧ Step table text budget i j i j' := by
  simp only [Span.covers_iff] at hcovers
  obtain ⟨s, hs, hstop⟩ := Text.isBoundary_iff.1 (hf.solid span hmem).stop
  have hlt : j < s := (Text.offset_lt_iff hs).1 (hstop ▸ hcovers.2)
  exact ⟨s, hstop, .solid hbare hmem hcovers.1 hlt hs hstop⟩

/-- With nothing in reach and no such span, the budget ends a step. -/
theorem Bare.step_plain (hbare : table.Bare (text.offset j) (text.offset (j + budget.maxChars)))
    (hfree : ∀ span ∈ table.solid, ¬ span.covers (text.offset j)) :
    Step table text budget i j i (min (i + budget.maxChars) text.length) := by
  refine .plain hbare fun span hmem hstart => ?_
  have hnot := hfree span hmem
  simp only [Span.covers, Bool.and_eq_true, decide_eq_true_eq, not_and, Nat.not_lt] at hnot
  exact hnot hstart

/-- A full window reaches behind what is covered, since the overlap is less than the budget. -/
theorem Ready.lt_limit (hr : Ready table text budget i j) (hj : j < text.length) :
    text.offset j < text.offset (i + budget.maxChars) := by
  have hoverlap := hr.overlap
  have hlt := budget.overlap_lt
  rw [← Text.offset_min_length text (i + budget.maxChars)]
  exact Text.offset_lt_offset (by omega) (Nat.min_le_right _ _)

/-- **Every choice is a step.** -/
theorem Fits.exists_step (hf : table.Fits text) (hr : Ready table text budget i j) (hj : j < text.length) :
    ∃ i' j', Step table text budget i j i' j' ∧
      table.nextSpan text budget (text.offset i) (text.offset j) = some ⟨text.offset i', text.offset j'⟩ := by
  unfold nextSpan
  rw [Text.advance?_offset, Text.advance?_offset]
  rcases table.candidates_cases (text.offset j) (text.offset (j + budget.maxChars)) with
    ⟨hbare, hnil⟩ | ⟨k, level, first, more, hc, hahead, hcons⟩
  · simp only [hnil]
    cases hfind : table.solid.find? (·.covers (text.offset j)) with
    | some span =>
      have hmem := List.mem_of_find?_eq_some hfind
      have hcovers : span.covers (text.offset j) := by simpa using List.find?_some hfind
      obtain ⟨s, hstop, hstep⟩ := hbare.step_solid hf hmem hcovers
      exact ⟨i, s, hstep, by simp only [hstop]⟩
    | none =>
      have hlimit := hr.lt_limit hj
      refine ⟨i, _, hbare.step_plain (List.find?_eq_none.1 hfind), ?_⟩
      simp only [Nat.not_le.2 hlimit, if_false, Text.offset_min_length]
  · simp only [hcons]
    cases hlast : ((first :: more).filter (· ≤ text.offset (i + budget.maxChars))).getLast? with
    | some stop =>
      rw [← hahead] at hlast
      obtain ⟨s, rfl, hstep⟩ := hc.step_unit hf hr hlast
      exact ⟨i, s, hstep, rfl⟩
    | none =>
      have hempty := List.getLast?_eq_none_iff.1 hlast
      have hfar : ∀ pos ∈ first :: more, ¬ pos ≤ text.offset (i + budget.maxChars) := by
        simpa [List.filter_eq_nil_iff] using hempty
      obtain ⟨s, rfl, hs, hbehind, hstep⟩ := hc.step_shortened hf hahead hfar
      refine ⟨s - budget.maxChars, s, hstep, ?_⟩
      simp only [Text.retreat?_offset hs, Option.map_some, Text.max_offset]
      rw [Nat.max_eq_left (by omega)]

/-! ## What a step keeps -/

/-- A window begins in what is covered, not before the full overlap, and covers more. -/
theorem Step.bounds (h : Step table text budget i j i' j') (hr : Ready table text budget i j) (hj : j < text.length) :
    i ≤ i' ∧ i' ≤ j ∧ j < j' ∧ j' ≤ text.length := by
  have hij := hr.start_le
  have hoverlap := hr.overlap
  have hlt := budget.overlap_lt
  cases h <;> omega

/-- With nothing in reach no edge of a span to keep whole is in reach. -/
theorem Bare.not_edge (hf : table.Fits text) (hbare : table.Bare covered reach) {span : Span} (hs : span ∈ table.solid)
    (hpos : pos = span.start ∨ pos = span.stop) (hlt : covered < pos) : reach < pos := by
  obtain ⟨level, hlevel, hmem⟩ := hf.edges span hs pos hpos (Nat.lt_of_le_of_lt (Nat.zero_le _) hlt)
  exact reach_lt_of_ahead_eq_nil (hbare level hlevel) hmem hlt

/-- No step ends inside a span to keep whole. -/
theorem Step.clear (h : Step table text budget i j i' j') (hf : table.Fits text) (hr : Ready table text budget i j)
    (hj : j < text.length) : ¬ CutPlan.inside table.solid (text.offset j') := by
  obtain ⟨-, -, hlt, hle⟩ := h.bounds hr hj
  have hoff : text.offset j < text.offset j' := Text.offset_lt_offset hlt hle
  cases h with
  | unit hc hmem => exact hf.clear _ hc.mem_levels _ hmem
  | shortened hc hmem => exact hf.clear _ hc.mem_levels _ hmem
  | @solid span stop _ hspan _ _ _ hstop =>
    obtain ⟨level, hlevel, hmem⟩ := hf.edges span hspan (text.offset j') (Or.inr hstop.symm) (by omega)
    exact hf.clear level hlevel _ hmem
  | plain hbare hfree =>
    intro hin
    obtain ⟨s, hs, hstart, hstop⟩ := CutPlan.inside_iff.1 hin
    -- A span behind the covered text has its start beyond the reach, one before it has its end covered.
    rcases Nat.lt_or_ge (text.offset j) s.start with hbehind | hbefore
    · have hreach := hbare.not_edge hf hs (Or.inl rfl) hbehind
      have hij := hr.start_le
      have := Text.offset_le_offset text (show min (i + budget.maxChars) text.length ≤ j + budget.maxChars by omega)
      omega
    · have := hfree s hs hbefore
      omega

/-- **A step keeps the invariant.** -/
theorem Step.ready (h : Step table text budget i j i' j') (hf : table.Fits text) (hr : Ready table text budget i j)
    (hj : j < text.length) : Ready table text budget (max (j' - budget.overlapChars) i') j' := by
  obtain ⟨-, hi', hlt, hle⟩ := h.bounds hr hj
  exact ⟨by omega, hle, by omega, h.clear hf hr hj⟩

/-- A window fits the budget, or it ends with a span to keep whole that begins where the text is covered and does
not fit by itself. -/
theorem Step.fits_or_solid (h : Step table text budget i j i' j') (hf : table.Fits text)
    (hr : Ready table text budget i j) :
    j' ≤ i' + budget.maxChars ∨
      ∃ span ∈ table.solid, span = ⟨text.offset j, text.offset j'⟩ ∧ j + budget.maxChars < j' ∧ i' = i := by
  cases h with
  | unit _ _ _ _ hfits => exact Or.inl hfits
  | shortened _ _ _ hfar => exact Or.inl (by omega)
  | plain => exact Or.inl (by omega)
  | @solid span stop hbare hspan hstart hlt hle hstop =>
    have hoff : text.offset j < text.offset j' := Text.offset_lt_offset hlt hle
    -- The covered text ends in no span to keep whole, so this one cannot have begun before.
    have hbegin : span.start = text.offset j := by
      rcases Nat.lt_or_ge span.start (text.offset j) with hin | hin
      · exact absurd (CutPlan.inside_iff.2 ⟨span, hspan, hin, by omega⟩) hr.clear
      · omega
    have hreach := hbare.not_edge hf hspan (Or.inr hstop.symm) hoff
    refine Or.inr ⟨span, hspan, ?_, (Text.offset_lt_iff hle).1 hreach, rfl⟩
    rw [← hbegin, ← hstop]

end CutTable
end Chunkwise
