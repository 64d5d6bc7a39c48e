import Chunkwise.Proofs.Window.Run

/-!
# How much successive windows share

A window shares with the one before it the full overlap, or all of a window that is shorter than that. It shares less
in two cases (`windows_share_overlap`): the overlap was shortened for a unit that fills the budget, or a blank span
was left out between the two windows, and then what they do share is blank. The next span of a run decides which
(`Run.shares_next`): if it was left out, nothing but its own characters can be shared behind it (`Run.shares_blank`).
-/

namespace Chunkwise
namespace CutTable

variable {table : CutTable} {text : Text} {budget : Budget} {i j i' j' : Nat}
variable {span : Span} {spans dropped after : List Span}

/-- A window has its full overlap, or it is as long as the budget admits and ends with a unit. -/
theorem Step.start_cases (h : Step table text budget i j i' j') :
    i' = i ∨ j' = i' + budget.maxChars ∧ ∃ level ∈ table.levels, text.offset j' ∈ level := by
  cases h with
  | unit => exact Or.inl rfl
  | shortened hc hmem _ hfar => exact Or.inr ⟨by omega, _, hc.mem_levels, hmem⟩
  | solid => exact Or.inl rfl
  | plain => exact Or.inl rfl

/-- What a run leaves out before a span is a blank stretch from where the span may begin to behind what is covered. -/
theorem Run.blank_behind (h : Run table text budget i j (dropped ++ span :: after)) (hne : dropped ≠ [])
    (hblank : ∀ s ∈ dropped, windowOf? text budget s = none) :
    ∃ m n p q, span = ⟨text.offset p, text.offset q⟩ ∧ i ≤ m ∧ m ≤ p ∧ p ≤ q ∧ q ≤ text.length ∧ m ≤ j ∧ j < n ∧
      n ≤ text.length ∧ Text.BlankFrom text m n := by
  cases dropped with
  | nil => exact absurd rfl hne
  | cons d dropped =>
    cases h with
    | @cut _ _ m n _ hr hj hstep hrest =>
      obtain ⟨him, hmj, hjn, hn⟩ := hstep.bounds hr hj
      obtain ⟨p, q, hspan, hp, hpq, -, hq⟩ := hrest.bounds (List.mem_append_right _ List.mem_cons_self)
      have hmn := (windowOf?_offset (by omega)).1 (hblank _ List.mem_cons_self)
      exact ⟨m, n, p, q, hspan, him, by omega, hpq, hq, hmj, hjn, hn, hmn⟩

/-- The span right behind another one shares the full overlap, or it is as long as the budget admits and ends with a
unit. -/
theorem Run.shares_next (h : Run table text budget (max (j - budget.overlapChars) i) j (span :: after)) (hij : i ≤ j) :
    text.charsIn ⟨span.start, text.offset j⟩ ≤ min budget.overlapChars (j - i) ∧
      (text.charsIn ⟨span.start, text.offset j⟩ < min budget.overlapChars (j - i) →
        text.charsIn span = budget.maxChars ∧ ∃ level ∈ table.levels, span.stop ∈ level) := by
  cases h with
  | @cut _ _ p q _ hr hj hstep _ =>
    obtain ⟨hp, hpj, hq, hqle⟩ := hstep.bounds hr hj
    have hple : p ≤ text.length := by omega
    simp only [Text.charsIn_offset hple (Nat.le_of_lt hj), Text.charsIn_offset hple hqle]
    refine ⟨by omega, fun hlt => ?_⟩
    rcases hstep.start_cases with hfull | ⟨hlong, hunit⟩
    · omega
    · exact ⟨by omega, hunit⟩

/-- A span behind one that was left out shares no more than the full overlap, and what it shares is blank, as is what
follows the covered text. -/
theorem Run.shares_blank (h : Run table text budget (max (j - budget.overlapChars) i) j (dropped ++ span :: after))
    (hne : dropped ≠ []) (hnone : ∀ s ∈ dropped, windowOf? text budget s = none) (hij : i ≤ j) :
    text.charsIn ⟨span.start, text.offset j⟩ ≤ min budget.overlapChars (j - i) ∧
      (∀ slice, text.slice? ⟨span.start, text.offset j⟩ = some slice → slice.isBlank) ∧
      ∃ c, text.charAt? (text.offset j) = some c ∧ isBlankChar c := by
  obtain ⟨m, n, p, q, rfl, him, hmp, hpq, hq, hmj, hjn, hn, hblank⟩ := h.blank_behind hne hnone
  rw [Text.charsIn_offset (show p ≤ text.length by omega) (show j ≤ text.length by omega)]
  refine ⟨by omega, fun slice hslice => ?_, ?_⟩
  · rcases Nat.lt_or_ge j p with hgap | hgap
    · have hbehind : text.offset j < text.offset p := Text.offset_lt_offset hgap (by omega)
      rw [Text.slice?, if_neg (Nat.not_le.2 hbehind)] at hslice
      cases hslice
    · rw [Text.slice?_offset hgap, Option.some.injEq] at hslice
      rw [← hslice]
      exact Text.isBlank_take_drop.2 (hblank.mono hmp (by omega))
  · obtain ⟨c, hc⟩ : ∃ c, text[j]? = some c := ⟨text[j], List.getElem?_eq_getElem (by omega)⟩
    exact ⟨c, Text.charAt?_eq_some_iff.2 ⟨j, rfl, hc⟩, hblank j c hmj hjn hc⟩

/-! ## Successive windows -/

/-- Two successive values of a partial map come from two elements with none between them that has a value. -/
theorem exists_of_filterMap_eq {α β : Type} {f : α → Option β} {l : List α} {before after : List β} {b b' : β}
    (h : l.filterMap f = before ++ b :: b' :: after) :
    ∃ xs a dropped a' ys, l = xs ++ a :: (dropped ++ a' :: ys) ∧ f a = some b ∧ (∀ x ∈ dropped, f x = none) ∧
      f a' = some b' := by
  obtain ⟨l₁, l₂, rfl, -, h⟩ := List.filterMap_eq_append_iff.1 h
  obtain ⟨l₃, a, l₄, rfl, -, ha, h⟩ := List.filterMap_eq_cons_iff.1 h
  obtain ⟨l₅, a', l₆, rfl, hnone, ha', -⟩ := List.filterMap_eq_cons_iff.1 h
  exact ⟨l₁ ++ l₃, a, l₅, a', l₆, by simp, ha, hnone, ha'⟩

/-- Spans that were left out between two spans of a list. -/
structure LeftOut (text : Text) (spans : List Span) (prev next : Span) (dropped : List Span) : Prop where
  between : ∃ xs ys, spans = xs ++ prev :: (dropped ++ next :: ys)
  nonempty : dropped ≠ []
  blank : ∀ s ∈ dropped, ∃ slice, text.slice? s = some slice ∧ slice.isBlank

/-- **Successive windows share the full overlap**, but where it was shortened for a unit that fills the budget, or a
blank span was left out. -/
theorem windows_share_overlap {plan : CutPlan} (h : plan.Built text) (budget : Budget) :
    ∃ spans windows, (plan.table text.byteLen).cuts text budget = some spans ∧
      (plan.table text.byteLen).windows text budget = some windows ∧
      ∀ before prev next after, windows = before ++ prev :: next :: after →
        let shared := text.charsIn ⟨next.span.start, prev.span.stop⟩
        let full := min budget.overlapChars (text.charsIn prev.span)
        shared ≤ full ∧
          (shared < full →
            (text.charsIn next.span = budget.maxChars ∧
              ∃ level ∈ (plan.table text.byteLen).levels, next.span.stop ∈ level) ∨
            (∃ dropped, LeftOut text spans prev.span next.span dropped) ∧
              (∀ slice, text.slice? ⟨next.span.start, prev.span.stop⟩ = some slice → slice.isBlank) ∧
              ∃ c, text.charAt? prev.span.stop = some c ∧ isBlankChar c) := by
  obtain ⟨spans, hcuts, hrun, hwindows⟩ := h.fits.exists_cuts budget
  refine ⟨spans, _, hcuts, hwindows, ?_⟩
  intro before prev next after hsucc
  -- Between the spans of two successive windows stand only spans that were left out.
  obtain ⟨xs, a, dropped, a', ys, rfl, ha, hnone, ha'⟩ := exists_of_filterMap_eq hsucc
  obtain ⟨-, -, -, rfl⟩ := windowOf?_eq_some_iff.1 ha
  obtain ⟨-, -, -, rfl⟩ := windowOf?_eq_some_iff.1 ha'
  obtain ⟨m, n, i, j, hr, hn, hstep, rfl, hrest⟩ := hrun.split
  obtain ⟨-, hin, hnj, hj⟩ := hstep.bounds hr hn
  have hij : i ≤ j := by omega
  rw [Text.charsIn_offset (Nat.le_trans hij hj) hj]
  by_cases hne : dropped = []
  · subst hne
    obtain ⟨hle, hfull⟩ := hrest.shares_next hij
    exact ⟨hle, fun hlt => Or.inl (hfull hlt)⟩
  · obtain ⟨hle, hshared, hbehind⟩ := hrest.shares_blank hne hnone hij
    refine ⟨hle, fun _ => Or.inr ⟨⟨dropped, ⟨xs, ys, rfl⟩, hne, fun d hd => ?_⟩, hshared, hbehind⟩⟩
    obtain ⟨k, l, rfl, -, hkl, -, -⟩ := hrest.bounds (List.mem_append_left _ hd)
    exact ⟨_, Text.slice?_offset hkl, Text.isBlank_take_drop.2 ((windowOf?_offset hkl).1 (hnone _ hd))⟩

/-- A text with a gap wider than the budget. -/
def gapText : Text := ['a', 'b', ' ', ' ', ' ', ' ', ' ', 'c']

def gapBudget : Budget := ⟨2, 1, by decide⟩

/-- The last two windows of that text share nothing: the gap between them was left out. -/
theorem windows_share_overlap_over_gap :
    (CutPlan.Built gapText {} ∧ (CutPlan.table {} gapText.byteLen).windows gapText gapBudget =
        some ([⟨⟨0, 2⟩, false⟩] ++ ⟨⟨1, 3⟩, false⟩ :: ⟨⟨6, 8⟩, false⟩ :: [])) ∧
      gapText.charsIn ⟨6, 3⟩ < min gapBudget.overlapChars (gapText.charsIn ⟨1, 3⟩) ∧
      ((gapText.charsIn ⟨6, 8⟩ = gapBudget.maxChars ∧
          ∃ level ∈ (CutPlan.table {} gapText.byteLen).levels, 8 ∈ level) ∨
        (∃ spans dropped, LeftOut gapText spans ⟨1, 3⟩ ⟨6, 8⟩ dropped) ∧
          ∃ c, gapText.charAt? 3 = some c ∧ isBlankChar c) := by
  have heval : (CutPlan.table {} gapText.byteLen).windows gapText gapBudget =
      some ([⟨⟨0, 2⟩, false⟩] ++ ⟨⟨1, 3⟩, false⟩ :: ⟨⟨6, 8⟩, false⟩ :: []) := by decide +kernel
  have hless : gapText.charsIn ⟨6, 3⟩ < min gapBudget.overlapChars (gapText.charsIn ⟨1, 3⟩) := by decide
  have hbuilt : CutPlan.Built gapText {} := .empty
  obtain ⟨spans, windows, -, hwindows, hshare⟩ := windows_share_overlap hbuilt gapBudget
  have hlist := Option.some.inj (hwindows.symm.trans heval)
  refine ⟨⟨hbuilt, heval⟩, hless, ?_⟩
  rcases (hshare _ _ _ _ hlist).2 hless with hunit | ⟨⟨dropped, hout⟩, -, hblank⟩
  · exact Or.inl hunit
  · exact Or.inr ⟨⟨spans, dropped, hout⟩, hblank⟩

end CutTable
end Chunkwise
