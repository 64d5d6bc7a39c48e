import Chunkwise.Chunker.Checked
import Chunkwise.Proofs.Text.LineText
import Chunkwise.Proofs.Text.Position
import Chunkwise.Proofs.Tree.Symbols
import Chunkwise.Proofs.Yields

/-!
# No step of an outline fails

The outline of a well-formed tree is `Sound`: it has the lines of its text, its symbols are located, and its attachments
are not empty. Then every slice that its plan takes is a slice of the text, every walk along a line moves on, and every
climb goes up; step by step the plan is the one that `Outline.plan` says (`plan?_eq`).
-/

namespace Chunkwise

namespace Outline

/-- An outline with the lines of its text, located symbols, and attachments that are not empty. -/
structure Sound (o : Outline) : Prop where
  lines : o.lines = LineTable.ofText o.text
  symbols : ∀ s ∈ o.symbols, s.Located o.text
  top : ∀ t ∈ o.top, t.1.Located o.text
  comments : ∀ c ∈ o.comments, c.Located o.text
  freeComments : ∀ c ∈ o.freeComments, c.Located o.text
  attachments : ∀ a ∈ o.attachments, a.Located o.text
  attachment_lt : ∀ a ∈ o.attachments, a.span.start < a.span.stop

/-- The outermost symbols of an outline are among its symbols. -/
theorem mem_of_mem_top {text : Text} {symbols : List Symbol} {t : Symbol × SymbolKind}
    (h : t ∈ (Outline.ofSymbols text symbols).top) : t.1 ∈ symbols := by
  obtain ⟨s, hs, rfl⟩ := List.mem_map.1 h
  exact (List.mem_filter.1 (Symbol.mem_of_mem_outermost hs)).1

/-- An outline of located symbols is sound if the attachments among them are not empty. -/
theorem sound_ofSymbols {text : Text} {symbols : List Symbol} (hlocated : ∀ s ∈ symbols, s.Located text)
    (hattached : ∀ s ∈ symbols, s.kind = .attachment → s.span.start < s.span.stop) :
    (Outline.ofSymbols text symbols).Sound where
  lines := rfl
  symbols := hlocated
  top := fun t ht => hlocated t.1 (mem_of_mem_top ht)
  comments := fun c hc => hlocated c (List.mem_filter.1 hc).1
  freeComments := fun c hc => hlocated c (List.mem_filter.1 (List.mem_filter.1 hc).1).1
  attachments := fun a ha => hlocated a (List.mem_filter.1 ha).1
  attachment_lt := by
    intro a ha
    obtain ⟨hmem, hkind⟩ := List.mem_filter.1 ha
    exact hattached a hmem (beq_iff_eq.1 hkind)

variable {o : Outline} {strategy : Strategy} {unit : Span} {s lead : Symbol} {leads comments : List Symbol}
variable {pos target first floor line : Nat}

/-! ## Lines -/

theorem lineText?_eq (ho : o.lines = LineTable.ofText o.text) (hline : 0 < line) :
    o.lineText? line = some (o.lines.lineText line) := by
  rw [lineText?, ho]
  exact LineTable.slice?_lineText o.text hline

theorem indentationOf?_eq (ho : o.lines = LineTable.ofText o.text) (hline : 0 < line) :
    o.indentationOf? line = some (Text.indentation (o.lines.lineText line)) := by
  rw [indentationOf?, ho]
  exact LineTable.indentation_lineStart o.text hline

theorem Sound.clearBetween?_eq (h : o.Sound) (hle : pos ≤ target) (hpos : o.text.isBoundary pos)
    (htarget : o.text.isBoundary target) : o.clearBetween? pos target = some (o.clearBetween pos target) := by
  induction hn : target - pos using Nat.strongRecOn generalizing pos with
  | _ n ih =>
    subst hn
    obtain ⟨rest, hrest⟩ := Text.exists_slice? hle hpos htarget
    rw [clearBetween?, clearBetween, hrest]
    simp only
    by_cases hnext : pos + Text.byteLen (rest.takeWhile isBlankChar) = target
    · rw [if_pos hnext, if_pos hnext]
    · rw [if_neg hnext, if_neg hnext]
      cases ha : o.attachments.find? fun a =>
          a.span.start == pos + Text.byteLen (rest.takeWhile isBlankChar) && decide (a.span.stop ≤ target) with
      | none => rfl
      | some a =>
        have hmem := List.mem_of_find?_eq_some ha
        have hfound := List.find?_some ha
        simp only [Bool.and_eq_true, beq_iff_eq, decide_eq_true_eq] at hfound
        have hlt := h.attachment_lt a hmem
        have hmoves : pos + Text.byteLen (rest.takeWhile isBlankChar) < a.span.stop ∧ a.span.stop ≤ target :=
          ⟨by omega, hfound.2⟩
        simp only [dif_pos hmoves]
        exact ih _ (by omega) hfound.2 (h.attachments a hmem).stop_boundary rfl

/-- A walk along attachments that comes to an answer comes to the right one. -/
theorem clearBetween?_eq_none_or (o : Outline) (pos target : Nat) :
    o.clearBetween? pos target = none ∨ o.clearBetween? pos target = some (o.clearBetween pos target) := by
  induction hn : target - pos using Nat.strongRecOn generalizing pos with
  | _ n ih =>
    subst hn
    rw [clearBetween?, clearBetween]
    cases o.text.slice? ⟨pos, target⟩ with
    | none => exact Or.inl rfl
    | some rest =>
      simp only
      by_cases hnext : pos + Text.byteLen (rest.takeWhile isBlankChar) = target
      · rw [if_pos hnext, if_pos hnext]
        exact Or.inr rfl
      · rw [if_neg hnext, if_neg hnext]
        cases o.attachments.find? fun a =>
            a.span.start == pos + Text.byteLen (rest.takeWhile isBlankChar) && decide (a.span.stop ≤ target) with
        | none => exact Or.inr rfl
        | some a =>
          simp only
          split
          · rename_i hmoves
            exact ih _ (by omega) _ rfl
          · exact Or.inl rfl

/-- **A walk along attachments moves on** in a sound outline, from one position to the next. -/
theorem yields_startsLine (ho : o.lines = LineTable.ofText o.text) (hs : o.Sound → s.Located o.text) :
    Yields o.Sound (o.startsLine? s) (o.startsLine s) := by
  have hstart : o.text.isBoundary (o.lines.lineStart s.lineStart) := by
    rw [ho]
    exact Text.isBoundary_lineStart o.text s.lineStart
  by_cases hle : o.lines.lineStart s.lineStart ≤ s.span.start
  · have hwalk : o.startsLine s = o.clearBetween (o.lines.lineStart s.lineStart) s.span.start := by
      simp [startsLine, hle]
    rw [startsLine?, if_pos hle, hwalk]
    rcases o.clearBetween?_eq_none_or (o.lines.lineStart s.lineStart) s.span.start with hnone | hsome
    · refine Or.inr ⟨hnone, fun h => ?_⟩
      rw [h.clearBetween?_eq hle hstart (hs h).start_boundary] at hnone
      cases hnone
    · exact Or.inl hsome
  · have hwalk : o.startsLine s = false := by simp [startsLine, hle]
    rw [startsLine?, if_neg hle, hwalk]
    exact .some _ _

/-! ## Climbing -/

theorem blankLines?_eq (ho : o.lines = LineTable.ofText o.text) (hfirst : 0 < first) (limit : Nat) :
    o.blankLines? first limit = some (o.blankLines first limit) := by
  refine (Yields.allM (P := True) fun line hline => ?_).eq_some trivial
  have hpos := (List.mem_range'_1.1 hline).1
  rw [lineText?_eq ho (by omega)]
  exact .some _ _

theorem touches?_eq (ho : o.lines = LineTable.ofText o.text) (lead : Symbol) (line : Nat) :
    o.touches? lead line = some (o.touches lead line) := by
  rw [touches?, touches]
  by_cases hnext : lead.lineEnd + 1 = line
  · simp [hnext]
  · by_cases hkind : lead.kind = .attachment
    · rw [if_neg hnext, if_pos hkind, blankLines?_eq ho (Nat.succ_pos _)]
      simp [hnext, hkind]
    · simp [hnext, hkind]

theorem yields_climbs (ho : o.lines = LineTable.ofText o.text) (hlead : o.Sound → lead.Located o.text)
    (floor line : Nat) :
    Yields o.Sound (o.climbs? floor line lead)
      (o.touches lead line && floor < lead.lineStart && o.startsLine lead) := by
  rw [climbs?, touches?_eq ho]
  simp only
  cases o.touches lead line && decide (floor < lead.lineStart) with
  | false => exact .some _ _
  | true => exact yields_startsLine ho hlead

/-- **Every climb goes up** in a sound outline: what ends above a line begins above it. -/
theorem yields_leadFrom (ho : o.lines = LineTable.ofText o.text)
    (hleads : o.Sound → ∀ lead ∈ leads, lead.Located o.text) (floor line : Nat) :
    Yields o.Sound (o.leadFrom? leads floor line) (o.leadFrom leads floor line) := by
  induction line using Nat.strongRecOn with
  | _ line ih =>
    rw [leadFrom?, leadFrom]
    cases hlead : (leads.filter (·.lineEnd < line)).getLast? with
    | none => exact .some _ _
    | some lead =>
      obtain ⟨hmem, habove⟩ := List.mem_filter.1 (List.mem_of_getLast? hlead)
      have hlt : o.Sound → lead.lineStart < line := fun h =>
        Nat.lt_of_le_of_lt (hleads h lead hmem).line_le (of_decide_eq_true habove)
      rcases yields_climbs ho (fun h => hleads h lead hmem) floor line with hclimb | ⟨hclimb, hunsound⟩
      · simp only [hclimb]
        by_cases hup : lead.lineStart < line
        · simp only [dif_pos hup]
          cases o.touches lead line && decide (floor < lead.lineStart) && o.startsLine lead with
          | false => exact Or.inl rfl
          | true => exact ih _ hup
        · simp only [dif_neg hup]
          cases o.touches lead line && decide (floor < lead.lineStart) && o.startsLine lead with
          | false => exact Or.inl rfl
          | true => exact Or.inr ⟨rfl, fun h => hup (hlt h)⟩
      · simp only [hclimb]
        exact Or.inr ⟨rfl, hunsound⟩

theorem mem_leads :
    lead ∈ o.leads strategy comments ↔ lead ∈ o.attachments ∨ (strategy.includeDocstrings ∧ lead ∈ comments) := by
  rw [leads, List.mem_mergeSort, List.mem_append]
  cases strategy.includeDocstrings <;> simp

theorem Sound.located_leads (h : o.Sound) (hcomments : ∀ c ∈ comments, c.Located o.text) (strategy : Strategy) :
    ∀ lead ∈ o.leads strategy comments, lead.Located o.text := by
  intro lead hlead
  rcases mem_leads.1 hlead with hlead | ⟨-, hlead⟩
  · exact h.attachments lead hlead
  · exact hcomments lead hlead

/-! ## Units -/

theorem yields_topLine (ho : o.lines = LineTable.ofText o.text) (strategy : Strategy) (above : Nat)
    (hs : o.Sound → s.Located o.text) :
    Yields o.Sound (o.topLine? strategy above s)
      (if above < s.lineStart && o.startsLine s then
          some (o.leadFrom (o.leads strategy o.freeComments) above s.lineStart)
        else none) := by
  have hclimb := yields_leadFrom ho (fun h => h.located_leads h.freeComments strategy) above s.lineStart
  rw [topLine?]
  by_cases hbelow : above < s.lineStart
  · simp only [hbelow, if_true, decide_true, Bool.true_and]
    refine (yields_startsLine ho hs).bind ?_
    cases o.startsLine s with
    | false => exact .some _ _
    | true => exact hclimb.map some
  · simp only [hbelow, if_false, decide_false, Bool.false_and]
    exact .some _ _

theorem yields_topLines (ho : o.lines = LineTable.ofText o.text) (strategy : Strategy) (above : Nat)
    {top : List (Symbol × SymbolKind)} (htop : o.Sound → ∀ t ∈ top, t.1.Located o.text) :
    Yields o.Sound (o.topLines? strategy above top) (o.topLines strategy above top) := by
  induction top generalizing above with
  | nil => exact .some _ _
  | cons t top ih =>
    have hline := yields_topLine ho strategy above fun h => htop h t List.mem_cons_self
    have hrest := ih (max above t.1.lineEnd) fun h t ht => htop h t (List.mem_cons_of_mem _ ht)
    exact hline.bind (hrest.bind (Or.inl rfl))

theorem yields_commentLines (ho : o.lines = LineTable.ofText o.text) (topLines : List (Option Nat)) :
    Yields o.Sound (o.commentLines? topLines) (o.commentLines topLines) := by
  have hfilter : (o.freeComments.filter fun c => !inLead o.top topLines c.lineStart).filter o.startsLine =
      o.freeComments.filter fun c => !inLead o.top topLines c.lineStart && o.startsLine c := by
    rw [List.filter_filter]
    simp only [Bool.and_comm]
  rw [commentLines, ← hfilter]
  refine (Yields.filterM fun c hc => yields_startsLine ho fun h => ?_).map _
  exact h.freeComments c (List.mem_filter.1 hc).1

theorem yields_unitStarts (ho : o.lines = LineTable.ofText o.text) (strategy : Strategy) :
    Yields o.Sound (o.unitStarts? strategy) (o.unitStarts strategy) := by
  have htop := yields_topLines ho strategy 0 fun h => h.top
  have hlines : Yields o.Sound (o.unitLines? strategy) (o.unitLines strategy) :=
    htop.bind ((yields_commentLines ho _).bind (Or.inl rfl))
  exact hlines.map _

/-! ## Cuts inside units -/

theorem yields_membersIn (ho : o.lines = LineTable.ofText o.text) (unit : Span) :
    Yields o.Sound (o.membersIn? unit) (o.membersIn unit) := by
  refine Yields.filterM fun member hmember => yields_startsLine ho fun h => ?_
  exact h.symbols member (List.mem_filter.1 (Symbol.mem_of_mem_outermost hmember)).1

theorem yields_addMember (ho : o.lines = LineTable.ofText o.text) (strategy : Strategy) (unit : Span) (plan : CutPlan)
    (member : Symbol) :
    Yields o.Sound (o.addMember? strategy unit plan member) (o.addMember strategy unit plan member) :=
  ((yields_leadFrom ho (fun h => h.located_leads h.comments strategy) _ _).map _).map _

theorem yields_bodyLines (ho : o.lines = LineTable.ofText o.text) (unit : Span) (hfirst : 0 < first) (last : Nat) :
    Yields o.Sound (o.bodyLines? unit first last) (o.bodyLines unit first last) := by
  have hlines : Yields o.Sound
      ((List.range' first (last + 1 - first)).mapM fun line => (o.lineText? line).map (line, ·))
      ((List.range' first (last + 1 - first)).map fun line => (line, o.lines.lineText line)) := by
    refine Yields.mapM fun line hline => ?_
    have hpos := (List.mem_range'_1.1 hline).1
    rw [lineText?_eq ho (by omega)]
    exact .some _ _
  have hbody := hlines.map fun lines => (lines.filter fun l =>
    !Text.isBlank l.2 && unit.start < o.lines.lineStart l.1 && o.lines.lineStart l.1 < unit.stop).map fun l =>
      (o.lines.lineStart l.1, Text.indentation l.2)
  rw [List.filter_map, List.map_map] at hbody
  exact hbody

theorem yields_indentation (ho : o.lines = LineTable.ofText o.text) (line : Nat) :
    Yields o.Sound (o.indentationOf? line) (Text.indentation (o.lines.lineText line)) := by
  rcases Nat.eq_zero_or_pos line with rfl | hline
  · -- There is no line 0: it would start at the end of the text, where nothing is left to indent.
    have hend : o.text.dropBytes? o.text.byteLen = some [] := by
      simpa using Text.dropBytes?_append o.text []
    refine Or.inl ?_
    rw [indentationOf?, ho]
    exact congrArg (Option.map Text.indentation) hend
  · exact Or.inl (indentationOf?_eq ho hline)

theorem yields_statementStarts (ho : o.lines = LineTable.ofText o.text) (unit : Span) :
    Yields o.Sound (o.statementStarts? unit) (o.statementStarts unit) := by
  rw [statementStarts?, statements?, statementStarts]
  cases largest ((o.topIn unit).map (·.1)) with
  | none => exact ((yields_bodyLines ho unit (LineTable.lineOf_pos _ _) _).map _).map _
  | some s =>
    have hbody := yields_bodyLines ho unit (Nat.succ_pos s.lineStart) s.lineEnd
    have hheader := yields_indentation ho s.lineStart
    refine Yields.map (a := (_, _)) (hbody.bind ?_) _
    exact hheader.bind (Yields.some _ _)

theorem yields_addUnit (ho : o.lines = LineTable.ofText o.text) (strategy : Strategy) (plan : CutPlan) (unit : Span) :
    Yields o.Sound (o.addUnit? strategy plan unit) (o.addUnit strategy plan unit) := by
  rw [addUnit?, addUnit]
  split
  · exact .some _ _
  · have hmembers := Yields.foldlM (l := o.membersIn unit)
      (fun member _ plan => yields_addMember ho strategy unit plan member) plan
    refine (yields_membersIn ho unit).bind (hmembers.bind ?_)
    split
    · exact (yields_statementStarts ho unit).map _
    · exact .some _ _

/-- Step by step the plan of an outline is the plan of the outline, and no step of a sound one fails. -/
theorem yields_plan (ho : o.lines = LineTable.ofText o.text) (strategy : Strategy) :
    Yields o.Sound (o.plan? strategy) (o.plan strategy) := by
  have hunits := Yields.foldlM (l := o.units strategy) (fun unit _ plan => yields_addUnit ho strategy plan unit)
    (CutPlan.markAll {} 0 (o.unitStarts strategy))
  exact (yields_unitStarts ho strategy).bind (hunits.bind (.some _ _))

/-- **No step of a sound outline fails.** -/
theorem Sound.plan?_eq (h : o.Sound) (strategy : Strategy) : o.plan? strategy = some (o.plan strategy) :=
  (yields_plan h.lines strategy).eq_some h

end Outline

namespace SyntaxTree

variable {tree : SyntaxTree} {language : Language} {text : Text}

/-- The outline of a well-formed tree is sound. -/
theorem WellFormed.sound (h : tree.WellFormed text language.attachmentKinds) : (tree.outline language text).Sound :=
  Outline.sound_ofSymbols (fun _ hs => h.located hs) fun _ hs hkind => h.attachment_lt hs hkind

end SyntaxTree
end Chunkwise
