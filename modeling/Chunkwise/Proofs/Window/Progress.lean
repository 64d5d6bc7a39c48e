import Chunkwise.Proofs.CutPlan.Request
import Chunkwise.Proofs.Window.Cover

/-!
# Cutting makes progress

`Reached` are the states that cutting comes to, counted in rounds: where the next window would begin with its full
overlap, and how far the text is covered. Each of them is `Ready` (`Reached.ready`), since a step keeps that, and so the
next choice covers more of the text (`Reached.advances`). Every round covers at least one character, so that there
are not more rounds than characters (`Run.length_le`), and each window begins in what is covered, so that there is
no gap between them (`Run.gaps_closed`). Together: `cutting_makes_progress`.
-/

namespace Chunkwise
namespace CutTable

variable {table : CutTable} {text : Text} {budget : Budget} {rounds start covered i j : Nat}
variable {span : Span} {spans : List Span}

/-! ## The states of a run -/

/-- The states that cutting comes to after some rounds: where the next window would begin with its full overlap, and
how far the text is covered. -/
inductive Reached (table : CutTable) (text : Text) (budget : Budget) : Nat → Nat → Nat → Prop
  | start : Reached table text budget 0 0 0
  | next {rounds start covered back : Nat} {span : Span} : Reached table text budget rounds start covered →
      covered < text.byteLen → table.nextSpan text budget start covered = some span →
      text.retreat? span.stop budget.overlapChars = some back →
      Reached table text budget (rounds + 1) (max back span.start) span.stop

/-- **Every state that cutting comes to is ready**, and covers at least as many characters as there were rounds. -/
theorem Reached.ready (hf : table.Fits text) (h : Reached table text budget rounds start covered) :
    ∃ i j, start = text.offset i ∧ covered = text.offset j ∧ Ready table text budget i j ∧ rounds ≤ j := by
  induction h with
  | start =>
    exact ⟨0, 0, Text.offset_zero.symm, Text.offset_zero.symm, ready_zero table text budget, Nat.le_refl 0⟩
  | @next rounds start covered back span _ hlt hnext hback ih =>
    obtain ⟨i, j, rfl, rfl, hr, hrounds⟩ := ih
    have hj : j < text.length := by
      rw [← Text.offset_length] at hlt
      exact (Text.offset_lt_iff (Nat.le_refl _)).1 hlt
    obtain ⟨i', j', hstep, hchosen⟩ := hf.exists_step hr hj
    obtain rfl := Option.some.inj (hnext.symm.trans hchosen)
    obtain ⟨-, -, hcovers, hle⟩ := hstep.bounds hr hj
    rw [Text.retreat?_offset hle, Option.some.injEq] at hback
    refine ⟨max (j' - budget.overlapChars) i', j', ?_, rfl, hstep.ready hf hr hj, by omega⟩
    rw [← hback, Text.max_offset]

/-- What the choice of the next window does in a state. -/
structure Advances (table : CutTable) (text : Text) (budget : Budget) (start covered : Nat) : Prop where
  start_le : start ≤ covered
  overlap : ∃ shared, text.slice? ⟨start, covered⟩ = some shared ∧ shared.length ≤ budget.overlapChars
  /-- A full window reaches behind what is covered: the choice that would push it there is never made. -/
  limit : ∃ limit, text.advance? start budget.maxChars = some limit ∧ ¬ limit ≤ covered
  chosen : ∃ span, table.nextSpan text budget start covered = some span ∧ start ≤ span.start ∧ span.start ≤ covered ∧
    covered < span.stop ∧ span.stop ≤ text.byteLen ∧ text.isBoundary span.start ∧ text.isBoundary span.stop

/-- **A state that is ready advances**, unless all of the text is covered. -/
theorem Ready.advances (hf : table.Fits text) (hr : Ready table text budget i j) (hj : j < text.length) :
    Advances table text budget (text.offset i) (text.offset j) where
  start_le := Text.offset_le_offset text hr.start_le
  overlap := by
    have hoverlap := hr.overlap
    refine ⟨_, Text.slice?_offset hr.start_le, ?_⟩
    rw [List.length_take]
    omega
  limit := ⟨_, Text.advance?_offset text i budget.maxChars, Nat.not_le.2 (hr.lt_limit hj)⟩
  chosen := by
    obtain ⟨i', j', hstep, hchosen⟩ := hf.exists_step hr hj
    obtain ⟨hi', hi'j, hlt, hle⟩ := hstep.bounds hr hj
    exact ⟨_, hchosen, Text.offset_le_offset text hi', Text.offset_le_offset text hi'j, Text.offset_lt_offset hlt hle,
      Text.offset_le_byteLen text j', Text.isBoundary_offset text i', Text.isBoundary_offset text j'⟩

/-! ## All rounds -/

/-- There are not more spans than characters left to cover. -/
theorem Run.length_le (h : Run table text budget i j spans) (hj : j ≤ text.length) :
    j + spans.length ≤ text.length := by
  induction h with
  | done => simpa using hj
  | @cut i j i' j' rest hr hlt hstep _ ih =>
    obtain ⟨-, -, hcovers, hle⟩ := hstep.bounds hr hlt
    have := ih hle
    rw [List.length_cons]
    omega

/-- There is nothing outside the spans of a run behind what it found covered. -/
theorem Run.gaps_closed (h : Run table text budget i j spans) :
    ∀ g ∈ Span.gaps (text.offset j) text.byteLen spans, g.stop ≤ g.start := by
  induction h with
  | done hj =>
    intro g hg
    have hend := Text.offset_of_length_le hj
    rw [List.mem_singleton.1 hg]
    exact Nat.le_of_eq hend.symm
  | @cut i j i' j' rest hr hj hstep _ ih =>
    obtain ⟨-, hi'j, -, -⟩ := hstep.bounds hr hj
    intro g hg
    rcases List.mem_cons.1 hg with rfl | hg
    · exact Text.offset_le_offset text hi'j
    · exact ih g hg

/-- Every cut is chosen in a state that cutting comes to. -/
theorem Reached.exists_state (hreached : Reached table text budget rounds start covered)
    (h : table.cutsFrom text budget start covered = some spans) (hspan : span ∈ spans) :
    ∃ n s c, Reached table text budget n s c ∧ c < text.byteLen ∧ table.nextSpan text budget s c = some span := by
  fun_induction cutsFrom table text budget start covered generalizing rounds spans with
  | case1 => cases h
  | case2 start covered hc chosen hnext _ slice back hback _ ih =>
    obtain ⟨rest, hrest, rfl⟩ := Option.map_eq_some_iff.1 h
    rcases List.mem_cons.1 hspan with rfl | hspan
    · exact ⟨rounds, start, covered, hreached, hc, hnext⟩
    · exact ih (.next hreached hc hnext hback) hrest hspan
  | case3 => cases h
  | case4 => cases h
  | case5 =>
    cases h
    cases hspan

/-- **Cutting makes progress** in every state that it comes to, whatever was asked for, as long as it was asked for
positions of the text. It ends after at most as many rounds as the text has characters, and there is no gap between
the windows, the blank ones among them. -/
theorem cutting_makes_progress (text : Text) (requests : List CutPlan.Request) (budget : Budget)
    (hon : ∀ r ∈ requests, r.On text) :
    (∀ rounds start covered, Reached ((CutPlan.ofRequests requests).table text.byteLen) text budget rounds start covered →
      rounds ≤ text.charsIn ⟨0, covered⟩ ∧
        (covered < text.byteLen →
          Advances ((CutPlan.ofRequests requests).table text.byteLen) text budget start covered)) ∧
    ∃ spans, ((CutPlan.ofRequests requests).table text.byteLen).cuts text budget = some spans ∧
      ((CutPlan.ofRequests requests).table text.byteLen).windows text budget =
        some (spans.filterMap (windowOf? text budget)) ∧
      (∀ span ∈ spans, ∃ rounds start covered,
        Reached ((CutPlan.ofRequests requests).table text.byteLen) text budget rounds start covered ∧
          covered < text.byteLen ∧
          ((CutPlan.ofRequests requests).table text.byteLen).nextSpan text budget start covered = some span) ∧
      spans.length ≤ text.length ∧ ∀ g ∈ Span.gaps 0 text.byteLen spans, g.stop ≤ g.start := by
  have hf := CutPlan.fits_ofRequests hon
  constructor
  · intro rounds start covered hreached
    obtain ⟨i, j, rfl, rfl, hr, hrounds⟩ := hreached.ready hf
    constructor
    · have hchars := Text.charsIn_offset (Nat.zero_le text.length) hr.covered_le
      rw [Text.offset_zero, Nat.sub_zero] at hchars
      rwa [hchars]
    · intro hlt
      rw [← Text.offset_length] at hlt
      exact hr.advances hf ((Text.offset_lt_iff (Nat.le_refl _)).1 hlt)
  · obtain ⟨spans, hcuts, hrun, hwindows⟩ := hf.exists_cuts budget
    refine ⟨spans, hcuts, hwindows, fun span hspan => Reached.start.exists_state hcuts hspan, ?_, ?_⟩
    · simpa using hrun.length_le (Nat.zero_le _)
    · have hclosed := hrun.gaps_closed
      rwa [Text.offset_zero] at hclosed

/-- Two lines, with a character of two bytes in the first. -/
def linesText : Text := ['a', 'é', ' ', 'b', '\n', 'c', 'd', ' ', 'e', '\n']

/-- The second line may be cut off, and its first word is to be kept whole. -/
def linesRequests : List CutPlan.Request := [.mark 0 6, .keep ⟨6, 8⟩, .mark 1 3, .mark 2 99]

def linesBudget : Budget := ⟨3, 2, by decide⟩

/-- After two rounds the first line is covered, and the next window gives up one character of its overlap for the word
that follows. -/
theorem cutting_makes_progress_lines :
    ((∀ r ∈ linesRequests, r.On linesText) ∧
        Reached ((CutPlan.ofRequests linesRequests).table linesText.byteLen) linesText linesBudget 2 4 6) ∧
      Advances ((CutPlan.ofRequests linesRequests).table linesText.byteLen) linesText linesBudget 4 6 ∧
      ((CutPlan.ofRequests linesRequests).table linesText.byteLen).cuts linesText linesBudget =
        some [⟨0, 3⟩, ⟨3, 6⟩, ⟨5, 8⟩, ⟨8, 11⟩] ∧
      [(⟨0, 3⟩ : Span), ⟨3, 6⟩, ⟨5, 8⟩, ⟨8, 11⟩].length ≤ linesText.length := by
  have hon : ∀ r ∈ linesRequests, r.On linesText := by decide
  have hfirst : ((CutPlan.ofRequests linesRequests).table linesText.byteLen).nextSpan linesText linesBudget 0 0 =
      some ⟨0, 3⟩ := by decide +kernel
  have hsecond : ((CutPlan.ofRequests linesRequests).table linesText.byteLen).nextSpan linesText linesBudget 0 3 =
      some ⟨3, 6⟩ := by decide +kernel
  have hstart : Reached ((CutPlan.ofRequests linesRequests).table linesText.byteLen) linesText linesBudget 1 0 3 :=
    Reached.next .start (by decide) hfirst (show linesText.retreat? 3 2 = some 0 by decide)
  have hreached : Reached ((CutPlan.ofRequests linesRequests).table linesText.byteLen) linesText linesBudget 2 4 6 :=
    Reached.next hstart (by decide) hsecond (show linesText.retreat? 6 2 = some 4 by decide)
  have hcuts : ((CutPlan.ofRequests linesRequests).table linesText.byteLen).cuts linesText linesBudget =
      some [⟨0, 3⟩, ⟨3, 6⟩, ⟨5, 8⟩, ⟨8, 11⟩] := by decide +kernel
  obtain ⟨hstates, spans, hspans, -, -, hrounds, -⟩ := cutting_makes_progress linesText linesRequests linesBudget hon
  obtain rfl := Option.some.inj (hspans.symm.trans hcuts)
  exact ⟨⟨hon, hreached⟩, (hstates 2 4 6 hreached).2 (by decide), hcuts, hrounds⟩

end CutTable
end Chunkwise
