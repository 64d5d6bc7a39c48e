import Chunkwise.CutPlan

/-!
# Merged spans

Merging goes through spans in the order of their starts and joins those that overlap. What comes out begins and ends
where some of the spans do (`edges_of_mem_mergedSolid`), is not empty if they are not
(`start_lt_stop_of_mem_mergedSolid`), and comes apart: each merged span ends before the next begins
(`pairwise_mergedSolid`). Each span lies in a merged one (`exists_mergedSolid_encloses`), and what two bytes can hold
lies in a merged span only if it lies in a span (`exists_encloses_of_mergedSolid`): joining spans that overlap closes no
gap between them. So the merged spans cover the same bytes (`covers_mergedSolid`), and the positions inside them are
those inside the spans themselves (`inside_mergedSolid`).
-/

namespace Chunkwise
namespace CutPlan

variable {current s : Span} {rest spans : List Span} {plan : CutPlan}

/-- Spans in the order of their starts. -/
def ByStart (spans : List Span) : Prop := spans.Pairwise fun a b => a.start ≤ b.start

/-- Spans each of which ends before the next begins. -/
def Apart (spans : List Span) : Prop := spans.Pairwise fun a b => a.stop ≤ b.start

theorem start_le_of_spanLe {a b : Span} (h : spanLe a b) : a.start ≤ b.start := by
  simp only [spanLe, Bool.or_eq_true, Bool.and_eq_true, decide_eq_true_eq, beq_iff_eq] at h
  omega

theorem eq_of_spanLe {a b : Span} (hab : spanLe a b) (hba : spanLe b a) : a = b := by
  cases a
  cases b
  simp only [spanLe, Bool.or_eq_true, Bool.and_eq_true, decide_eq_true_eq, beq_iff_eq, Span.mk.injEq] at hab hba ⊢
  omega

theorem pairwise_mergeSort_spanLe (spans : List Span) : (spans.mergeSort spanLe).Pairwise fun a b => spanLe a b := by
  refine List.pairwise_mergeSort ?_ ?_ spans
  · intro a b c hab hbc
    simp only [spanLe, Bool.or_eq_true, Bool.and_eq_true, decide_eq_true_eq, beq_iff_eq] at hab hbc ⊢
    omega
  · intro a b
    simp only [spanLe, Bool.or_eq_true, Bool.and_eq_true, decide_eq_true_eq, beq_iff_eq]
    omega

theorem byStart_mergeSort (spans : List Span) : ByStart (spans.mergeSort spanLe) :=
  (pairwise_mergeSort_spanLe spans).imp start_le_of_spanLe

theorem ByStart.join {span : Span} {stop : Nat} (h : ByStart (current :: span :: rest)) :
    ByStart (⟨current.start, stop⟩ :: rest) := by
  obtain ⟨hcurrent, h⟩ := List.pairwise_cons.1 h
  exact List.pairwise_cons.2 ⟨fun s hs => hcurrent s (List.mem_cons_of_mem _ hs), (List.pairwise_cons.1 h).2⟩

/-! ## What comes out of merging -/

/-- A merged span begins where one of the spans begins and ends where one of them ends. -/
theorem edges_of_mem_mergeFrom (h : s ∈ mergeFrom current rest) :
    (∃ a ∈ current :: rest, s.start = a.start) ∧ ∃ b ∈ current :: rest, s.stop = b.stop := by
  induction rest generalizing current with
  | nil =>
    rw [mergeFrom, List.mem_singleton] at h
    subst h
    exact ⟨⟨s, List.mem_cons_self, rfl⟩, s, List.mem_cons_self, rfl⟩
  | cons span rest ih =>
    unfold mergeFrom at h
    split at h
    · -- The joined span stands for two: it has the start of the first and the later of their ends.
      obtain ⟨⟨a, ha, hstart⟩, b, hb, hstop⟩ := ih h
      constructor
      · rcases List.mem_cons.1 ha with rfl | ha
        · exact ⟨current, List.mem_cons_self, hstart⟩
        · exact ⟨a, List.mem_cons_of_mem _ (List.mem_cons_of_mem _ ha), hstart⟩
      · rcases List.mem_cons.1 hb with rfl | hb
        · rcases Nat.le_total current.stop span.stop with hle | hle
          · exact ⟨span, List.mem_cons_of_mem _ List.mem_cons_self, by rw [hstop]; exact Nat.max_eq_right hle⟩
          · exact ⟨current, List.mem_cons_self, by rw [hstop]; exact Nat.max_eq_left hle⟩
        · exact ⟨b, List.mem_cons_of_mem _ (List.mem_cons_of_mem _ hb), hstop⟩
    · rcases List.mem_cons.1 h with rfl | h
      · exact ⟨⟨s, List.mem_cons_self, rfl⟩, s, List.mem_cons_self, rfl⟩
      · obtain ⟨⟨a, ha, hstart⟩, b, hb, hstop⟩ := ih h
        exact ⟨⟨a, List.mem_cons_of_mem _ ha, hstart⟩, b, List.mem_cons_of_mem _ hb, hstop⟩

theorem start_lt_stop_of_mem_mergeFrom (hne : ∀ a ∈ current :: rest, a.start < a.stop)
    (h : s ∈ mergeFrom current rest) : s.start < s.stop := by
  induction rest generalizing current with
  | nil =>
    rw [mergeFrom, List.mem_singleton] at h
    subst h
    exact hne s List.mem_cons_self
  | cons span rest ih =>
    unfold mergeFrom at h
    split at h
    · refine ih (fun a ha => ?_) h
      rcases List.mem_cons.1 ha with rfl | ha
      · have := hne current List.mem_cons_self
        show current.start < max current.stop span.stop
        omega
      · exact hne a (List.mem_cons_of_mem _ (List.mem_cons_of_mem _ ha))
    · rcases List.mem_cons.1 h with rfl | h
      · exact hne s List.mem_cons_self
      · exact ih (fun a ha => hne a (List.mem_cons_of_mem _ ha)) h

theorem start_le_of_mem_mergeFrom (hs : ByStart (current :: rest)) (h : s ∈ mergeFrom current rest) :
    current.start ≤ s.start := by
  obtain ⟨⟨a, ha, hstart⟩, -⟩ := edges_of_mem_mergeFrom h
  rw [hstart]
  rcases List.mem_cons.1 ha with rfl | ha
  · exact Nat.le_refl _
  · exact (List.pairwise_cons.1 hs).1 a ha

theorem pairwise_mergeFrom (hs : ByStart (current :: rest)) : Apart (mergeFrom current rest) := by
  induction rest generalizing current with
  | nil => exact List.pairwise_singleton _ _
  | cons span rest ih =>
    unfold mergeFrom
    split
    · exact ih hs.join
    · rename_i hapart
      have htail : ByStart (span :: rest) := (List.pairwise_cons.1 hs).2
      refine List.pairwise_cons.2 ⟨fun s h => ?_, ih htail⟩
      have := start_le_of_mem_mergeFrom htail h
      omega

/-- Each span lies in one that comes out of merging. -/
theorem exists_mergeFrom_encloses (hs : ByStart (current :: rest)) {a : Span} (ha : a ∈ current :: rest) :
    ∃ m ∈ mergeFrom current rest, m.encloses a := by
  induction rest generalizing current a with
  | nil =>
    rw [mergeFrom, List.mem_singleton.1 ha]
    exact ⟨current, List.mem_cons_self, Span.encloses_iff.2 ⟨Nat.le_refl _, Nat.le_refl _⟩⟩
  | cons span rest ih =>
    have hle : current.start ≤ span.start := (List.pairwise_cons.1 hs).1 span List.mem_cons_self
    unfold mergeFrom
    split
    · -- What encloses the joined span encloses the two that it stands for.
      let joined : Span := ⟨current.start, max current.stop span.stop⟩
      have hfirst : joined.start ≤ current.start ∧ current.stop ≤ joined.stop := ⟨Nat.le_refl _, Nat.le_max_left _ _⟩
      have hsecond : joined.start ≤ span.start ∧ span.stop ≤ joined.stop := ⟨hle, Nat.le_max_right _ _⟩
      obtain ⟨m, hm, hin⟩ : ∃ m ∈ mergeFrom joined rest, m.encloses joined := ih hs.join List.mem_cons_self
      rw [Span.encloses_iff] at hin
      rcases List.mem_cons.1 ha with rfl | ha
      · exact ⟨m, hm, Span.encloses_iff.2 ⟨Nat.le_trans hin.1 hfirst.1, Nat.le_trans hfirst.2 hin.2⟩⟩
      · rcases List.mem_cons.1 ha with rfl | ha
        · exact ⟨m, hm, Span.encloses_iff.2 ⟨Nat.le_trans hin.1 hsecond.1, Nat.le_trans hsecond.2 hin.2⟩⟩
        · exact ih hs.join (List.mem_cons_of_mem _ ha)
    · rcases List.mem_cons.1 ha with rfl | ha
      · exact ⟨a, List.mem_cons_self, Span.encloses_iff.2 ⟨Nat.le_refl _, Nat.le_refl _⟩⟩
      · obtain ⟨m, hm, hin⟩ := ih (List.pairwise_cons.1 hs).2 ha
        exact ⟨m, List.mem_cons_of_mem _ hm, hin⟩

/-- A piece of at most two bytes in a span that comes out of merging lies in one of the spans. -/
theorem exists_encloses_of_mergeFrom {piece : Span} (hsize : piece.stop ≤ piece.start + 2)
    (hs : s ∈ mergeFrom current rest) (hin : s.encloses piece) : ∃ a ∈ current :: rest, a.encloses piece := by
  induction rest generalizing current with
  | nil =>
    rw [mergeFrom, List.mem_singleton] at hs
    exact ⟨current, List.mem_cons_self, hs ▸ hin⟩
  | cons span rest ih =>
    unfold mergeFrom at hs
    split at hs
    · obtain ⟨a, ha, hin⟩ := ih hs
      rcases List.mem_cons.1 ha with rfl | ha
      · -- The second span begins inside the first, so that a piece that ends behind the first begins in the second.
        simp only [Span.encloses_iff] at hin
        rcases Nat.lt_or_ge current.stop piece.stop with hbehind | hwithin
        · exact ⟨span, List.mem_cons_of_mem _ List.mem_cons_self, Span.encloses_iff.2 (by omega)⟩
        · exact ⟨current, List.mem_cons_self, Span.encloses_iff.2 ⟨hin.1, hwithin⟩⟩
      · exact ⟨a, List.mem_cons_of_mem _ (List.mem_cons_of_mem _ ha), hin⟩
    · rcases List.mem_cons.1 hs with rfl | hs
      · exact ⟨s, List.mem_cons_self, hin⟩
      · obtain ⟨a, ha, hin⟩ := ih hs
        exact ⟨a, List.mem_cons_of_mem _ ha, hin⟩

/-! ## The spans that a plan keeps whole -/

/-- The merged spans of a plan come out of merging its spans in the order of their starts. -/
theorem mergedSolid_cases (plan : CutPlan) : (plan.solid = [] ∧ plan.mergedSolid = []) ∨
    ∃ current rest, ByStart (current :: rest) ∧ (∀ a, a ∈ current :: rest ↔ a ∈ plan.solid) ∧
      plan.mergedSolid = mergeFrom current rest := by
  have hs := byStart_mergeSort plan.solid
  have hmem : ∀ a, a ∈ plan.solid.mergeSort spanLe ↔ a ∈ plan.solid := fun a => List.mem_mergeSort
  unfold mergedSolid
  cases hsort : plan.solid.mergeSort spanLe with
  | nil =>
    rw [hsort] at hmem
    exact Or.inl ⟨List.eq_nil_iff_forall_not_mem.2 fun a ha => List.not_mem_nil ((hmem a).2 ha), rfl⟩
  | cons current rest =>
    rw [hsort] at hs hmem
    exact Or.inr ⟨current, rest, hs, hmem, rfl⟩

theorem mem_merge_of_mem_mergedSolid (h : s ∈ plan.mergedSolid) :
    ∃ current rest, (∀ a, a ∈ current :: rest ↔ a ∈ plan.solid) ∧ s ∈ mergeFrom current rest := by
  rcases plan.mergedSolid_cases with ⟨-, hnil⟩ | ⟨current, rest, -, hmem, hmerged⟩
  · rw [hnil] at h
    cases h
  · exact ⟨current, rest, hmem, hmerged ▸ h⟩

theorem edges_of_mem_mergedSolid (h : s ∈ plan.mergedSolid) :
    (∃ a ∈ plan.solid, s.start = a.start) ∧ ∃ b ∈ plan.solid, s.stop = b.stop := by
  obtain ⟨current, rest, hmem, h⟩ := mem_merge_of_mem_mergedSolid h
  obtain ⟨⟨a, ha, hstart⟩, b, hb, hstop⟩ := edges_of_mem_mergeFrom h
  exact ⟨⟨a, (hmem a).1 ha, hstart⟩, b, (hmem b).1 hb, hstop⟩

theorem start_lt_stop_of_mem_mergedSolid (hne : ∀ a ∈ plan.solid, a.start < a.stop) (h : s ∈ plan.mergedSolid) :
    s.start < s.stop := by
  obtain ⟨current, rest, hmem, h⟩ := mem_merge_of_mem_mergedSolid h
  exact start_lt_stop_of_mem_mergeFrom (fun a ha => hne a ((hmem a).1 ha)) h

theorem pairwise_mergedSolid (plan : CutPlan) : Apart plan.mergedSolid := by
  rcases plan.mergedSolid_cases with ⟨-, hnil⟩ | ⟨current, rest, hs, -, hmerged⟩
  · rw [hnil]
    exact List.Pairwise.nil
  · rw [hmerged]
    exact pairwise_mergeFrom hs

theorem exists_mergedSolid_encloses (h : s ∈ plan.solid) : ∃ m ∈ plan.mergedSolid, m.encloses s := by
  rcases plan.mergedSolid_cases with ⟨hnil, -⟩ | ⟨current, rest, hs, hmem, hmerged⟩
  · rw [hnil] at h
    cases h
  · rw [hmerged]
    exact exists_mergeFrom_encloses hs ((hmem s).2 h)

theorem exists_encloses_of_mergedSolid {piece : Span} (hsize : piece.stop ≤ piece.start + 2)
    (h : s ∈ plan.mergedSolid) (hin : s.encloses piece) : ∃ a ∈ plan.solid, a.encloses piece := by
  obtain ⟨current, rest, hmem, h⟩ := mem_merge_of_mem_mergedSolid h
  obtain ⟨a, ha, hin⟩ := exists_encloses_of_mergeFrom hsize h hin
  exact ⟨a, (hmem a).1 ha, hin⟩

/-- The merged spans cover what the spans that a plan keeps whole cover. -/
theorem covers_mergedSolid (plan : CutPlan) (pos : Nat) :
    (∃ s ∈ plan.mergedSolid, s.covers pos) ↔ ∃ s ∈ plan.solid, s.covers pos := by
  simp only [Span.covers_iff]
  constructor
  · rintro ⟨s, hs, hstart, hstop⟩
    have hin : s.encloses ⟨pos, pos + 1⟩ := Span.encloses_iff.2 ⟨hstart, hstop⟩
    obtain ⟨a, ha, hin⟩ := exists_encloses_of_mergedSolid (Nat.le_succ (pos + 1)) hs hin
    exact ⟨a, ha, Span.encloses_iff.1 hin⟩
  · rintro ⟨a, ha, hstart, hstop⟩
    obtain ⟨m, hm, hin⟩ := exists_mergedSolid_encloses ha
    rw [Span.encloses_iff] at hin
    exact ⟨m, hm, by omega, by omega⟩

/-- Spans are merged in order, however they were added. -/
theorem mergedSolid_of_perm {ordered : List Span} (h : plan.solid.Perm ordered)
    (hordered : ordered.Pairwise fun a b => spanLe a b) : plan.mergedSolid = merge ordered := by
  have hsort : plan.solid.mergeSort spanLe = ordered :=
    ((List.mergeSort_perm plan.solid spanLe).trans h).eq_of_pairwise (fun _ _ _ _ => eq_of_spanLe)
      (pairwise_mergeSort_spanLe plan.solid) hordered
  rw [mergedSolid, hsort]

theorem mergedSolid_of_solid_eq_nil (h : plan.solid = []) : plan.mergedSolid = [] := by
  rw [mergedSolid, h, List.mergeSort_nil, merge]

@[simp] theorem solid_mark (plan : CutPlan) (level pos : Nat) : (plan.mark level pos).solid = plan.solid := rfl

@[simp] theorem solid_markAll (plan : CutPlan) (level : Nat) (positions : List Nat) :
    (plan.markAll level positions).solid = plan.solid := rfl

/-- What each step of a fold adds to what holds of a plan, all of them add. -/
theorem foldl_iff {α : Type} {f : CutPlan → α → CutPlan} {Q : CutPlan → Prop} {P : α → Prop}
    (hf : ∀ plan a, Q (f plan a) ↔ Q plan ∨ P a) (plan : CutPlan) (l : List α) :
    Q (l.foldl f plan) ↔ Q plan ∨ ∃ a ∈ l, P a := by
  induction l generalizing plan with
  | nil => simp
  | cons a l ih =>
    rw [List.foldl_cons, ih, hf, or_assoc]
    simp only [List.mem_cons, exists_eq_or_imp]

/-- Of two spans of a list that are apart one ends before the other begins. -/
theorem Apart.eq_or_before (h : Apart spans) {t : Span} (hs : s ∈ spans) (ht : t ∈ spans) :
    s = t ∨ s.stop ≤ t.start ∨ t.stop ≤ s.start :=
  List.Pairwise.forall_of_forall_of_flip (R := fun a b : Span => a = b ∨ a.stop ≤ b.start ∨ b.stop ≤ a.start)
    (fun _ _ => Or.inl rfl) (h.imp fun h => Or.inr (Or.inl h)) (h.imp fun h => Or.inr (Or.inr h)) hs ht

theorem inside_iff {pos : Nat} : inside spans pos ↔ ∃ s ∈ spans, s.start < pos ∧ pos < s.stop := by
  simp only [inside, List.any_eq_true, Bool.and_eq_true, decide_eq_true_eq]

/-- **The positions inside the merged spans are those inside the spans that a plan keeps whole.** -/
theorem inside_mergedSolid (plan : CutPlan) (pos : Nat) : inside plan.mergedSolid pos ↔ inside plan.solid pos := by
  rw [inside_iff, inside_iff]
  constructor
  · rintro ⟨s, hs, hstart, hstop⟩
    have hin : s.encloses ⟨pos - 1, pos + 1⟩ := Span.encloses_iff.2 ⟨Nat.le_sub_one_of_lt hstart, hstop⟩
    obtain ⟨a, ha, hin⟩ := exists_encloses_of_mergedSolid (by simp only; omega) hs hin
    simp only [Span.encloses_iff] at hin
    exact ⟨a, ha, by omega, by omega⟩
  · rintro ⟨a, ha, hstart, hstop⟩
    obtain ⟨m, hm, hin⟩ := exists_mergedSolid_encloses ha
    rw [Span.encloses_iff] at hin
    exact ⟨m, hm, by omega, by omega⟩

/-- Spans that are apart have none of their edges inside another. -/
theorem Apart.not_inside_edge (hapart : Apart spans) (hne : ∀ a ∈ spans, a.start < a.stop) {pos : Nat} (hs : s ∈ spans)
    (hpos : pos = s.start ∨ pos = s.stop) : ¬ inside spans pos := by
  intro hin
  obtain ⟨t, ht, htstart, htstop⟩ := inside_iff.1 hin
  have hlt := hne s hs
  rcases hapart.eq_or_before hs ht with rfl | h | h <;> rcases hpos with rfl | rfl <;> omega

end CutPlan
end Chunkwise
