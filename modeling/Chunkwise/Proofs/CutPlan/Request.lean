import Chunkwise.Proofs.CutPlan.Table

/-!
# Plans as what was asked of them

A plan comes about by requests, in any order and any number: to mark a position at a level, or several at once, and to
keep a span whole. It has the marks that were asked for, and keeps exactly the spans that were asked for and are not empty
(`mem_marks_ofRequests`, `mem_solid_ofRequests`). If all that was asked for are positions of a text, its table fits the
text (`fits_ofRequests`).
-/

namespace Chunkwise
namespace CutPlan

/-- What can be asked of a plan. -/
inductive Request where
  /-- To mark a position at a level. -/
  | mark (level pos : Nat)
  /-- To mark positions at a level. -/
  | markAll (level : Nat) (positions : List Nat)
  /-- To keep a span whole. -/
  | keep (span : Span)

/-- Grants a request. -/
def grant (plan : CutPlan) : Request → CutPlan
  | .mark level pos => plan.mark level pos
  | .markAll level positions => plan.markAll level positions
  | .keep span => plan.keepWhole span

/-- The plan of some requests, granted one after the other. -/
def ofRequests (requests : List Request) : CutPlan := requests.foldl grant {}

/-- Whether a request is for a mark at a position of a level. -/
def Request.Marks : Request → Nat → Nat → Prop
  | .mark level p, k, pos => k = level ∧ pos = p
  | .markAll level positions, k, pos => k = level ∧ pos ∈ positions
  | .keep _, _, _ => False

/-- Whether a request is to keep a span whole that is not empty. -/
def Request.Keeps : Request → Span → Prop
  | .keep span, s => s = span ∧ s.start < s.stop
  | _, _ => False

variable {plan : CutPlan} {requests : List Request} {level pos : Nat} {span : Span}

theorem mem_marks_markAll {k : Nat} {positions : List Nat} :
    (k, pos) ∈ (plan.markAll level positions).marks ↔ (k = level ∧ pos ∈ positions) ∨ (k, pos) ∈ plan.marks := by
  simp only [markAll, List.mem_append, List.mem_map, Prod.mk.injEq]
  refine or_congr_left ⟨?_, ?_⟩
  · rintro ⟨_, h, rfl, rfl⟩
    exact ⟨rfl, h⟩
  · rintro ⟨rfl, h⟩
    exact ⟨pos, h, rfl, rfl⟩

theorem mem_marks_keepWhole {m : Nat × Nat} : m ∈ (plan.keepWhole span).marks ↔ m ∈ plan.marks := by
  unfold keepWhole
  split <;> rfl

theorem solid_keepWhole (plan : CutPlan) (span : Span) :
    (plan.keepWhole span).solid = if span.start < span.stop then span :: plan.solid else plan.solid := by
  unfold keepWhole
  split <;> rfl

theorem mem_solid_keepWhole {s : Span} :
    s ∈ (plan.keepWhole span).solid ↔ s ∈ plan.solid ∨ (s = span ∧ s.start < s.stop) := by
  rw [solid_keepWhole]
  split
  · rename_i hlt
    rw [List.mem_cons]
    constructor
    · rintro (rfl | h)
      · exact Or.inr ⟨rfl, hlt⟩
      · exact Or.inl h
    · rintro (h | ⟨rfl, -⟩)
      · exact Or.inr h
      · exact Or.inl rfl
  · rename_i hlt
    constructor
    · exact Or.inl
    · rintro (h | ⟨rfl, h⟩)
      · exact h
      · exact absurd h hlt

theorem mem_marks_grant {r : Request} :
    (level, pos) ∈ (plan.grant r).marks ↔ (level, pos) ∈ plan.marks ∨ r.Marks level pos := by
  cases r with
  | mark l p => simp [grant, mark, Request.Marks, or_comm]
  | markAll l positions => simp [grant, mem_marks_markAll, Request.Marks, or_comm]
  | keep s => simp [grant, mem_marks_keepWhole, Request.Marks]

theorem mem_solid_grant {r : Request} : span ∈ (plan.grant r).solid ↔ span ∈ plan.solid ∨ r.Keeps span := by
  cases r with
  | mark l p => simp [grant, Request.Keeps]
  | markAll l positions => simp [grant, Request.Keeps]
  | keep s => simp [grant, mem_solid_keepWhole, Request.Keeps]

theorem Request.start_lt_stop_of_keeps {r : Request} (h : r.Keeps span) : span.start < span.stop := by
  cases r with
  | mark => cases h
  | markAll => cases h
  | keep => exact h.2

/-- A plan has the marks that were asked for. -/
theorem mem_marks_ofRequests : (level, pos) ∈ (ofRequests requests).marks ↔ ∃ r ∈ requests, r.Marks level pos := by
  refine (foldl_iff (f := grant) (Q := fun plan => (level, pos) ∈ plan.marks) (fun _ _ => mem_marks_grant) {}
    requests).trans ?_
  simp

/-- A plan keeps whole the spans that were asked for and are not empty. -/
theorem mem_solid_ofRequests : span ∈ (ofRequests requests).solid ↔ ∃ r ∈ requests, r.Keeps span := by
  refine (foldl_iff (f := grant) (Q := fun plan => span ∈ plan.solid) (fun _ _ => mem_solid_grant) {}
    requests).trans ?_
  simp

theorem keep_mem_of_mem_solid_ofRequests (h : span ∈ (ofRequests requests).solid) :
    .keep span ∈ requests ∧ span.start < span.stop := by
  obtain ⟨r, hr, hkeeps⟩ := mem_solid_ofRequests.1 h
  cases r with
  | mark => cases hkeeps
  | markAll => cases hkeeps
  | keep s =>
    obtain ⟨rfl, hlt⟩ := hkeeps
    exact ⟨hr, hlt⟩

/-! ## Requests for positions of a text -/

/-- Whether a request is for positions of a text. A mark behind the text is left out and may be anywhere. -/
def Request.On (text : Text) : Request → Prop
  | .mark _ pos => pos ≤ text.byteLen → text.isBoundary pos
  | .markAll _ positions => ∀ pos ∈ positions, pos ≤ text.byteLen → text.isBoundary pos
  | .keep span => text.isBoundary span.start ∧ text.isBoundary span.stop

instance (text : Text) : (r : Request) → Decidable (r.On text)
  | .mark _ pos => inferInstanceAs (Decidable (pos ≤ text.byteLen → text.isBoundary pos))
  | .markAll _ positions =>
    inferInstanceAs (Decidable (∀ pos ∈ positions, pos ≤ text.byteLen → text.isBoundary pos))
  | .keep span => inferInstanceAs (Decidable (text.isBoundary span.start ∧ text.isBoundary span.stop))

theorem Request.On.isBoundary {text : Text} {r : Request} (h : r.On text) (hmarks : r.Marks level pos)
    (hle : pos ≤ text.byteLen) : text.isBoundary pos := by
  cases r with
  | mark l p =>
    obtain ⟨-, rfl⟩ := hmarks
    exact h hle
  | markAll l positions => exact h pos hmarks.2 hle
  | keep s => cases hmarks

theorem sliceOf_ofRequests {text : Text} (h : ∀ r ∈ requests, r.On text) :
    ∀ s ∈ (ofRequests requests).solid, s.SliceOf text := by
  intro s hs
  obtain ⟨hmem, hlt⟩ := keep_mem_of_mem_solid_ofRequests hs
  obtain ⟨hstart, hstop⟩ := h (.keep s) hmem
  exact ⟨hlt, hstart, hstop⟩

/-- **The table of requests for positions of a text fits the text.** -/
theorem fits_ofRequests {text : Text} (h : ∀ r ∈ requests, r.On text) :
    ((ofRequests requests).table text.byteLen).Fits text := by
  refine fits_table ?_ (sliceOf_ofRequests h)
  intro m hm
  obtain ⟨r, hr, hmarks⟩ := mem_marks_ofRequests.1 hm
  exact (h r hr).isBoundary hmarks

end CutPlan
end Chunkwise
