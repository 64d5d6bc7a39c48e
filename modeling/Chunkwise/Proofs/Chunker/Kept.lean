import Chunkwise.Proofs.Chunker.Plans
import Chunkwise.Proofs.CutPlan.Request

/-!
# What an outline asks for

At level 0 the plan of an outline has the starts of the units and nothing else (`mem_marks_plan`). It keeps two kinds
of spans whole (`mem_solid_plan`): the units that a flag governs (`keepsWhole_iff`), and in the other units the
functions among the members, each in whole lines with its lead (`memberSpan`). None of them reaches out of its unit
(`Keeps.within`).
-/

namespace Chunkwise
namespace Outline

variable {o : Outline} {strategy : Strategy} {plan : CutPlan} {unit span : Span} {member : Symbol} {pos : Nat}

/-- What a member takes up of a unit with its lead, in whole lines. -/
def memberSpan (o : Outline) (strategy : Strategy) (unit : Span) (member : Symbol) : Span :=
  ⟨max (o.memberStart strategy unit member) unit.start, min (o.lines.lineEnd member.lineEnd) unit.stop⟩

/-- Whether an outermost symbol that begins in a unit counts as of some kinds. -/
def Holds (o : Outline) (unit : Span) (kinds : SymbolKind → Bool) : Prop :=
  ∃ t ∈ o.top, unit.covers t.1.span.start ∧ kinds t.2

/-- Whether a flag governs a unit: that for containers one with a container, that for functions one with a function
and no container. -/
def Governed (o : Outline) (strategy : Strategy) (unit : Span) : Prop :=
  (o.Holds unit SymbolKind.isContainer ∧ strategy.preserveClasses) ∨
    (¬ o.Holds unit SymbolKind.isContainer ∧ o.Holds unit SymbolKind.isCallable ∧ strategy.preserveMethods)

/-- The spans of a unit that are to be kept whole. -/
inductive Keeps (o : Outline) (strategy : Strategy) (unit : Span) : Span → Prop
  | unit : o.Governed strategy unit → Keeps o strategy unit unit
  | member {m : Symbol} : ¬ o.Governed strategy unit → strategy.preserveMethods → m ∈ o.membersIn unit →
      m.kind.isCallable → Keeps o strategy unit (o.memberSpan strategy unit m)

theorem any_topIn (o : Outline) (unit : Span) (kinds : SymbolKind → Bool) :
    ((o.topIn unit).any fun t => kinds t.2) = true ↔ o.Holds unit kinds := by
  simp only [topIn, List.any_filter, List.any_eq_true, Bool.and_eq_true, Holds]

theorem keepsWhole_iff : o.keepsWhole strategy unit ↔ o.Governed strategy unit := by
  have hcontainer := any_topIn o unit SymbolKind.isContainer
  have hcallable := any_topIn o unit SymbolKind.isCallable
  unfold keepsWhole Governed
  split
  · rename_i h
    have hholds := hcontainer.1 h
    simp [hholds]
  · rename_i h
    have hnone := mt hcontainer.2 h
    rw [Bool.and_eq_true, hcallable]
    simp [hnone]

theorem Keeps.within (h : o.Keeps strategy unit span) : unit.start ≤ span.start ∧ span.stop ≤ unit.stop := by
  cases h with
  | unit => exact ⟨Nat.le_refl _, Nat.le_refl _⟩
  | member => exact ⟨Nat.le_max_right _ _, Nat.min_le_right _ _⟩

/-! ## What each step of a plan adds -/

/-- A member adds nothing but its lines to what is kept whole. -/
theorem solid_addMember (o : Outline) (strategy : Strategy) (unit : Span) (plan : CutPlan) (member : Symbol) :
    (o.addMember strategy unit plan member).solid =
      if strategy.preserveMethods && member.kind.isCallable then
        (plan.keepWhole (o.memberSpan strategy unit member)).solid
      else plan.solid := by
  have hmark : (if unit.start < o.memberStart strategy unit member then
      plan.mark 1 (o.memberStart strategy unit member) else plan).solid = plan.solid := by
    split
    · exact CutPlan.solid_mark plan 1 _
    · rfl
  simp only [addMember]
  split
  · rw [CutPlan.solid_keepWhole, CutPlan.solid_keepWhole, hmark]
    rfl
  · exact hmark

theorem mem_solid_addMember :
    span ∈ (o.addMember strategy unit plan member).solid ↔ span ∈ plan.solid ∨
      (span = o.memberSpan strategy unit member ∧ strategy.preserveMethods ∧ member.kind.isCallable ∧
        span.start < span.stop) := by
  rw [solid_addMember]
  split
  · rename_i hkept
    obtain ⟨hmethods, hcallable⟩ := Bool.and_eq_true_iff.1 hkept
    rw [CutPlan.mem_solid_keepWhole]
    simp only [hmethods, hcallable, true_and]
  · rename_i hkept
    refine (or_iff_left ?_).symm
    rintro ⟨-, hmethods, hcallable, -⟩
    exact hkept (Bool.and_eq_true_iff.2 ⟨hmethods, hcallable⟩)

theorem mem_marks_addMember :
    (0, pos) ∈ (o.addMember strategy unit plan member).marks ↔ (0, pos) ∈ plan.marks := by
  have hmark : (0, pos) ∈ (if unit.start < o.memberStart strategy unit member then
      plan.mark 1 (o.memberStart strategy unit member) else plan).marks ↔ (0, pos) ∈ plan.marks := by
    split <;> simp [CutPlan.mark]
  simp only [addMember]
  split
  · rw [CutPlan.mem_marks_keepWhole, hmark]
  · exact hmark

theorem mem_solid_addUnit :
    span ∈ (o.addUnit strategy plan unit).solid ↔ span ∈ plan.solid ∨
      (o.Keeps strategy unit span ∧ span.start < span.stop) := by
  unfold addUnit
  split
  · rename_i hwhole
    have hgoverned := keepsWhole_iff.1 hwhole
    rw [CutPlan.mem_solid_keepWhole]
    refine or_congr_right (and_congr_left fun _ => ⟨?_, ?_⟩)
    · rintro rfl
      exact .unit hgoverned
    · rintro (h | ⟨hnot, _⟩)
      · rfl
      · exact absurd hgoverned hnot
  · rename_i hwhole
    have hgoverned := mt keepsWhole_iff.2 hwhole
    have hmembers := CutPlan.foldl_iff (f := o.addMember strategy unit) (Q := fun plan => span ∈ plan.solid)
      (fun _ _ => mem_solid_addMember) plan (o.membersIn unit)
    have hstatements : (if strategy.respectIndentation then
        ((o.membersIn unit).foldl (o.addMember strategy unit) plan).markAll 2 (o.statementStarts unit) else
        (o.membersIn unit).foldl (o.addMember strategy unit) plan).solid =
          ((o.membersIn unit).foldl (o.addMember strategy unit) plan).solid := by split <;> rfl
    simp only [hstatements]
    rw [hmembers]
    refine or_congr_right ⟨?_, ?_⟩
    · rintro ⟨m, hm, rfl, hmethods, hcallable, hlt⟩
      exact ⟨.member hgoverned hmethods hm hcallable, hlt⟩
    · rintro ⟨h | ⟨-, hmethods, hm, hcallable⟩, hlt⟩
      · exact absurd ‹_› hgoverned
      · exact ⟨_, hm, rfl, hmethods, hcallable, hlt⟩

theorem mem_marks_addUnit : (0, pos) ∈ (o.addUnit strategy plan unit).marks ↔ (0, pos) ∈ plan.marks := by
  unfold addUnit
  split
  · exact CutPlan.mem_marks_keepWhole
  · have hmembers := CutPlan.foldl_iff (f := o.addMember strategy unit) (Q := fun plan => (0, pos) ∈ plan.marks)
      (P := fun _ => False) (fun _ _ => mem_marks_addMember.trans (or_iff_left id).symm) plan (o.membersIn unit)
    simp only [and_false, exists_false, or_false] at hmembers
    simp only
    split
    · rw [CutPlan.mem_marks_markAll, hmembers]
      simp
    · exact hmembers

/-! ## The plan -/

/-- **An outline keeps whole what its units keep.** -/
theorem mem_solid_plan :
    span ∈ (o.plan strategy).solid ↔
      ∃ unit ∈ o.units strategy, o.Keeps strategy unit span ∧ span.start < span.stop := by
  rw [plan, CutPlan.solid_markAll]
  refine (CutPlan.foldl_iff (f := o.addUnit strategy) (Q := fun plan => span ∈ plan.solid)
    (fun _ _ => mem_solid_addUnit) _ (o.units strategy)).trans ?_
  simp

/-- At level 0 an outline marks the starts of its units. -/
theorem mem_marks_plan : (0, pos) ∈ (o.plan strategy).marks ↔ pos ∈ o.unitStarts strategy := by
  have hunits := CutPlan.foldl_iff (f := o.addUnit strategy) (Q := fun plan => (0, pos) ∈ plan.marks)
    (P := fun _ => False) (fun _ _ => mem_marks_addUnit.trans (or_iff_left id).symm)
    (CutPlan.markAll {} 0 (o.unitStarts strategy)) (o.units strategy)
  rw [plan, CutPlan.mem_marks_markAll, hunits, CutPlan.mem_marks_markAll]
  simp

end Outline
end Chunkwise
