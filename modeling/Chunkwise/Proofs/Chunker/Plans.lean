import Chunkwise.Chunker.Section
import Chunkwise.Chunker.Unit
import Chunkwise.Proofs.Chunker.FenceLines
import Chunkwise.Proofs.CutPlan.Table

/-!
# The plans of the chunkers

Separators, fences, sections and outlines all mark positions of their text: the plan of every chunker is `Built`
(`built_separatorPlan`, `built_sectionPlan`, `Outline.built_plan`). For the last two this does not depend on where the
symbols are, since they are cut by whole lines.
-/

namespace Chunkwise

variable {text s : Text} {pos n : Nat} {plan : CutPlan}

/-! ## Separators -/

namespace Separator

theorem ahead_of_mem_afterNewlines (h : n ∈ afterNewlines pos s) : Text.Ahead pos s n := by
  induction s generalizing pos with
  | nil => cases h
  | cons c s ih =>
    unfold afterNewlines at h
    split at h
    · rcases List.mem_cons.1 h with rfl | h
      · exact (Text.Ahead.here _ _).cons
      · exact (ih h).cons
    · exact (ih h).cons

theorem ahead_of_mem_afterGaps {inGap : Bool} (h : n ∈ afterGaps inGap pos s) : Text.Ahead pos s n := by
  have hgap : n ∈ (if inGap then [pos] else []) → n = pos := by cases inGap <;> simp
  induction s generalizing pos inGap with
  | nil =>
    unfold afterGaps at h
    rw [hgap h]
    exact Text.Ahead.here _ _
  | cons c s ih =>
    unfold afterGaps at h
    split at h
    · exact (ih h (by simp)).cons
    · rcases List.mem_append.1 h with h | h
      · rw [hgap h]
        exact Text.Ahead.here _ _
      · exact (ih h (by simp)).cons

theorem ahead_of_mem_afterParagraphs {opened : Bool} (h : n ∈ afterParagraphs opened pos s) : Text.Ahead pos s n := by
  induction s generalizing pos opened with
  | nil => cases h
  | cons c s ih =>
    unfold afterParagraphs at h
    split at h
    · split at h
      · rcases List.mem_cons.1 h with rfl | h
        · exact (Text.Ahead.here _ _).cons
        · exact (ih h).cons
      · exact (ih h).cons
    · exact (ih h).cons

theorem isBoundary_of_mem_linesThat {p : Text → Bool} (h : n ∈ linesThat p text) : text.isBoundary n := by
  obtain ⟨line, hline, -⟩ := exists_line_of_mem_linesThat h
  exact (Text.isBoundary_of_mem_locatedLines hline).1

theorem built_addCommon (h : plan.Built text) (level : Nat) : (addCommon text level plan).Built text :=
  ((h.markAll fun _ hpos => (ahead_of_mem_afterParagraphs hpos).isBoundary).markAll fun _ hpos =>
    (ahead_of_mem_afterNewlines hpos).isBoundary).markAll fun _ hpos => (ahead_of_mem_afterGaps hpos).isBoundary

theorem built_addProse (h : plan.Built text) : (addProse text plan).Built text :=
  built_addCommon ((h.markAll fun _ hpos => isBoundary_of_mem_linesThat hpos).markAll fun _ hpos =>
    isBoundary_of_mem_linesThat hpos) _

theorem built_addHeadings (h : plan.Built text) : (addHeadings text plan).Built text :=
  CutPlan.Built.foldl (fun _ _ _ hplan => hplan.markAll fun _ hpos => isBoundary_of_mem_linesThat hpos) h

end Separator

/-! ## Fences -/

namespace Fence

/-- Fenced blocks begin and end with lines. -/
theorem isBoundary_of_mem_blocks {block : Span} (h : block ∈ blocks text) :
    text.isBoundary block.start ∧ text.isBoundary block.stop := by
  obtain ⟨⟨l, hl, hstart⟩, l', hl', hstop⟩ := (fenced_blocks text).whole block h
  rw [hstart, hstop]
  exact ⟨(Text.isBoundary_of_mem_locatedLines hl).1, (Text.isBoundary_of_mem_locatedLines hl').2⟩

end Fence

namespace Chunker

/-- The plan of the separators of a text is made of its positions. -/
theorem built_separatorPlan (text : Text) (markup : Bool) : (separatorPlan text markup).Built text := by
  rw [separatorPlan]
  split
  · refine Separator.built_addProse (CutPlan.Built.foldl (fun block hblock plan hplan => ?_)
      (Separator.built_addHeadings .empty))
    obtain ⟨hstart, hstop⟩ := Fence.isBoundary_of_mem_blocks hblock
    exact ((hplan.mark hstart).mark hstop).keepWhole hstart hstop
  · exact Separator.built_addCommon .empty 0

/-! ## Sections -/

theorem built_addSymbol (h : plan.Built text) (symbol : Symbol) :
    (addSymbol (LineTable.ofText text) plan symbol).Built text := by
  have hstart := Text.isBoundary_lineStart text symbol.lineStart
  have hstop := Text.isBoundary_lineEnd text symbol.lineEnd
  unfold addSymbol
  split
  · exact h.mark hstart
  · exact ((h.mark hstart).mark hstop).keepWhole hstart hstop
  · exact h

/-- The plan of the sections of a text is made of its positions. -/
theorem built_sectionPlan (text : Text) (symbols : List Symbol) : (sectionPlan text symbols).Built text :=
  Separator.built_addProse (CutPlan.Built.foldl (fun symbol _ _ hplan => built_addSymbol hplan symbol) .empty)

end Chunker

/-! ## Outlines -/

namespace Outline

variable {o : Outline} {strategy : Strategy} {unit : Span}

theorem isBoundary_of_mem_unitStarts (ho : o.lines = LineTable.ofText o.text) (h : pos ∈ o.unitStarts strategy) :
    o.text.isBoundary pos := by
  obtain ⟨line, -, rfl⟩ := List.mem_map.1 (List.mem_filter.1 h).1
  rw [ho]
  exact Text.isBoundary_lineStart o.text line

/-- Spans between positions begin and end at them, or at the two ends. -/
theorem ends_of_mem_spansBetween {start stop : Nat} {positions : List Nat} {span : Span}
    (h : span ∈ spansBetween start stop positions) :
    (span.start = start ∨ span.start ∈ positions) ∧ (span.stop = stop ∨ span.stop ∈ positions) := by
  induction positions generalizing start with
  | nil =>
    rw [List.mem_singleton.1 h]
    exact ⟨Or.inl rfl, Or.inl rfl⟩
  | cons p positions ih =>
    rcases List.mem_cons.1 h with rfl | h
    · exact ⟨Or.inl rfl, Or.inr List.mem_cons_self⟩
    · obtain ⟨hstart, hstop⟩ := ih h
      refine ⟨Or.inr ?_, hstop.imp_right (List.mem_cons_of_mem _)⟩
      rcases hstart with hstart | hstart
      · exact List.mem_cons.2 (Or.inl hstart)
      · exact List.mem_cons_of_mem _ hstart

theorem ends_of_mem_units (h : unit ∈ o.units strategy) :
    (unit.start = 0 ∨ unit.start ∈ o.unitStarts strategy) ∧
      (unit.stop = o.text.byteLen ∨ unit.stop ∈ o.unitStarts strategy) :=
  ends_of_mem_spansBetween h

theorem isBoundary_of_mem_units (ho : o.lines = LineTable.ofText o.text) (h : unit ∈ o.units strategy) :
    o.text.isBoundary unit.start ∧ o.text.isBoundary unit.stop := by
  obtain ⟨hstart, hstop⟩ := ends_of_mem_units h
  constructor
  · rcases hstart with hzero | hstart
    · rw [hzero]
      exact Text.isBoundary_zero _
    · exact isBoundary_of_mem_unitStarts ho hstart
  · rcases hstop with hend | hstop
    · rw [hend]
      exact Text.isBoundary_byteLen _
    · exact isBoundary_of_mem_unitStarts ho hstop

theorem built_addMember (ho : o.lines = LineTable.ofText o.text) (hstart : o.text.isBoundary unit.start)
    (hstop : o.text.isBoundary unit.stop) (h : plan.Built o.text) (member : Symbol) :
    (o.addMember strategy unit plan member).Built o.text := by
  have hmember : o.text.isBoundary (o.memberStart strategy unit member) := by
    rw [memberStart, ho]
    exact Text.isBoundary_lineStart _ _
  have hmarked : (if unit.start < o.memberStart strategy unit member then
      plan.mark 1 (o.memberStart strategy unit member) else plan).Built o.text := by
    split
    · exact h.mark hmember
    · exact h
  simp only [addMember]
  split
  · refine hmarked.keepWhole (Text.isBoundary_max hmember hstart) (Text.isBoundary_min ?_ hstop)
    rw [ho]
    exact Text.isBoundary_lineEnd _ _
  · exact hmarked

theorem isBoundary_of_mem_bodyLines (ho : o.lines = LineTable.ofText o.text) {first last : Nat} {l : Nat × Nat}
    (h : l ∈ o.bodyLines unit first last) : o.text.isBoundary l.1 := by
  obtain ⟨line, -, rfl⟩ := List.mem_map.1 h
  simp only [ho]
  exact Text.isBoundary_lineStart _ _

theorem isBoundary_of_mem_statementStarts (ho : o.lines = LineTable.ofText o.text)
    (h : pos ∈ o.statementStarts unit) : o.text.isBoundary pos := by
  unfold statementStarts at h
  split at h
  rename_i body deeper hbody
  split at h
  · cases h
  · obtain ⟨l, hl, rfl⟩ := List.mem_map.1 h
    have hmem := (List.mem_filter.1 hl).1
    split at hbody
    · obtain ⟨rfl, -⟩ := Prod.mk.inj hbody
      exact isBoundary_of_mem_bodyLines ho hmem
    · obtain ⟨rfl, -⟩ := Prod.mk.inj hbody
      exact isBoundary_of_mem_bodyLines ho hmem

theorem built_addUnit (ho : o.lines = LineTable.ofText o.text) (hunit : unit ∈ o.units strategy)
    (h : plan.Built o.text) : (o.addUnit strategy plan unit).Built o.text := by
  obtain ⟨hstart, hstop⟩ := isBoundary_of_mem_units ho hunit
  unfold addUnit
  split
  · exact h.keepWhole hstart hstop
  · have hmembers := CutPlan.Built.foldl (l := o.membersIn unit) (f := o.addMember strategy unit)
      (fun member _ _ hplan => built_addMember ho hstart hstop hplan member) h
    simp only
    split
    · exact hmembers.markAll fun _ hpos => isBoundary_of_mem_statementStarts ho hpos
    · exact hmembers

/-- The plan of an outline is made of positions of its text. -/
theorem built_plan (ho : o.lines = LineTable.ofText o.text) (strategy : Strategy) :
    (o.plan strategy).Built o.text := by
  have hstarts : (CutPlan.markAll {} 0 (o.unitStarts strategy)).Built o.text :=
    CutPlan.Built.empty.markAll fun _ hpos => isBoundary_of_mem_unitStarts ho hpos
  have hunits := CutPlan.Built.foldl (l := o.units strategy) (f := o.addUnit strategy)
    (fun unit hunit _ hplan => built_addUnit ho hunit hplan) hstarts
  refine hunits.markAll fun _ hpos => ?_
  rw [ho] at hpos
  exact Text.isBoundary_of_mem_interior hpos

end Outline
end Chunkwise
