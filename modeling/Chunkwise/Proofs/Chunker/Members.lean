import Chunkwise.Proofs.Chunker.Kept
import Chunkwise.Proofs.Tree.Symbols

/-!
# Members and their leads

A member takes its lead with it: it begins where the climb from its first line over attachments and comments stops,
which is not behind the member (`memberStart_le`), and its whole lines hold it (`memberSpan_encloses`). The climb is
bounded by the first line of the unit only. It stops below the member before it if nothing that can be climbed over
reaches into the last line of that one (`lt_leadFrom`); the whole lines of the two are then apart
(`members_stay_apart`).
-/

namespace Chunkwise

namespace Outline

variable {o : Outline} {strategy : Strategy} {unit span : Span} {member m₁ m₂ : Symbol} {leads : List Symbol}
variable {floor last line : Nat}

/-! ## How far a climb goes -/

/-- What a climb does: it stays where it is, or goes on from a lead that touches the line, begins below the floor and
starts its line. -/
theorem leadFrom_cases (o : Outline) (leads : List Symbol) (floor line : Nat) :
    o.leadFrom leads floor line = line ∨ ∃ lead ∈ leads, lead.lineEnd < line ∧ lead.lineStart < line ∧
      o.touches lead line ∧ floor < lead.lineStart ∧ o.startsLine lead ∧
      o.leadFrom leads floor line = o.leadFrom leads floor lead.lineStart := by
  rw [leadFrom]
  split
  · exact Or.inl rfl
  · rename_i lead hlead
    obtain ⟨hmem, habove⟩ := List.mem_filter.1 (List.mem_of_getLast? hlead)
    split
    · rename_i hlt
      split
      · rename_i hclimb
        simp only [Bool.and_eq_true, decide_eq_true_eq] at hclimb habove
        exact Or.inr ⟨lead, hmem, habove, hlt, hclimb.1.1, hclimb.1.2, hclimb.2, rfl⟩
      · exact Or.inl rfl
    · exact Or.inl rfl

/-- A climb that begins below a line not below its floor ends below it. -/
theorem lt_leadFrom_of_le {n : Nat} (hfloor : n ≤ floor) (h : n < line) : n < o.leadFrom leads floor line := by
  induction line using Nat.strongRecOn with
  | _ line ih =>
    rcases leadFrom_cases o leads floor line with hstay | ⟨lead, -, -, hlt, -, habove, -, hclimb⟩
    · rwa [hstay]
    · rw [hclimb]
      exact ih _ hlt (Nat.lt_of_le_of_lt hfloor habove)

/-- Whether the last line of a symbol is left to it: there is something on it, and nothing that can be climbed over
reaches into it. -/
structure ClosesLine (o : Outline) (leads : List Symbol) (s : Symbol) : Prop where
  ink : ¬ Text.isBlank (o.lines.lineText s.lineEnd)
  clear : ∀ lead ∈ leads, o.startsLine lead → ¬ (lead.lineStart ≤ s.lineEnd ∧ s.lineEnd ≤ lead.lineEnd)

theorem isBlank_of_blankLines {first limit : Nat} (h : o.blankLines first limit) (hfirst : first ≤ line)
    (hlimit : line < limit) : Text.isBlank (o.lines.lineText line) :=
  List.all_eq_true.1 h line (List.mem_range'_1.2 ⟨hfirst, by omega⟩)

/-- Between a lead and the line that it touches there are only blank lines. -/
theorem isBlank_of_touches {lead : Symbol} {limit : Nat} (h : o.touches lead limit) (hfirst : lead.lineEnd < line)
    (hlimit : line < limit) : Text.isBlank (o.lines.lineText line) := by
  simp only [touches, Bool.or_eq_true, Bool.and_eq_true, beq_iff_eq] at h
  rcases h with hnext | ⟨-, hblank⟩
  · omega
  · exact isBlank_of_blankLines hblank hfirst hlimit

/-- **A climb from below a symbol that closes its line stops below it.** -/
theorem lt_leadFrom (floor : Nat) (hclose : o.ClosesLine leads member) (h : member.lineEnd < line) :
    member.lineEnd < o.leadFrom leads floor line := by
  induction line using Nat.strongRecOn with
  | _ line ih =>
    rcases leadFrom_cases o leads floor line with hstay | ⟨lead, hlead, habove, hlt, htouches, -, hstarts, hclimb⟩
    · rwa [hstay]
    · rw [hclimb]
      refine ih _ hlt (Nat.lt_of_not_le fun hreach => ?_)
      refine hclose.clear lead hlead hstarts ⟨hreach, ?_⟩
      -- A lead further up touches the line only over blank lines, and the last line of the symbol is not blank.
      exact Nat.le_of_not_lt fun hbefore => hclose.ink (isBlank_of_touches htouches hbefore h)

/-! ## Where a member begins and ends -/

/-- The line where a member begins with its lead. -/
def memberLine (o : Outline) (strategy : Strategy) (unit : Span) (member : Symbol) : Nat :=
  o.leadFrom (o.leads strategy o.comments) (o.lines.lineOf unit.start) member.lineStart

theorem memberStart_eq (o : Outline) (strategy : Strategy) (unit : Span) (member : Symbol) :
    o.memberStart strategy unit member = o.lines.lineStart (o.memberLine strategy unit member) := rfl

theorem memberStart_le (ho : o.lines = LineTable.ofText o.text) (strategy : Strategy) (unit : Span)
    (hmember : member.Located o.text) :
    o.memberStart strategy unit member ≤ member.span.start := by
  rw [memberStart_eq, ho]
  refine Nat.le_trans (LineTable.lineStart_le_lineStart ?_ ?_) hmember.lineStart_le
  · exact lt_leadFrom_of_le (Nat.zero_le _) hmember.line_pos
  · exact leadFrom_le o _ _ _

/-- The whole lines of a member hold what is in the member, as far as it is in the unit. -/
theorem memberSpan_encloses (ho : o.lines = LineTable.ofText o.text) (strategy : Strategy)
    (hmember : member.Located o.text) (hspan : member.span.encloses span) (hunit : unit.encloses span) :
    (o.memberSpan strategy unit member).start ≤ span.start ∧ span.stop ≤ (o.memberSpan strategy unit member).stop := by
  simp only [Span.encloses_iff] at hspan hunit
  have hstart := memberStart_le ho strategy unit hmember
  have hstop := hmember.le_lineEnd
  rw [← ho] at hstop
  exact ⟨Nat.max_le.2 ⟨by omega, hunit.1⟩, Nat.le_min.2 ⟨by omega, hunit.2⟩⟩

/-- A member that begins below another begins behind its end, and so do its whole lines. -/
theorem le_memberStart (ho : o.lines = LineTable.ofText o.text) (hmember : m₁.Located o.text)
    (hline : m₁.lineEnd < o.memberLine strategy unit m₂) :
    m₁.span.stop ≤ o.memberStart strategy unit m₂ ∧
      (o.memberSpan strategy unit m₁).stop ≤ (o.memberSpan strategy unit m₂).start := by
  have hle : o.lines.lineEnd m₁.lineEnd ≤ o.memberStart strategy unit m₂ := by
    rw [memberStart_eq, ho]
    exact LineTable.lineEnd_le_lineStart hline
  have hstop := hmember.le_lineEnd
  rw [← ho] at hstop
  exact ⟨Nat.le_trans hstop hle, Nat.le_trans (Nat.min_le_left _ _) (Nat.le_trans hle (Nat.le_max_left _ _))⟩

theorem mem_symbols_of_mem_membersIn (h : member ∈ o.membersIn unit) : member ∈ o.symbols :=
  (List.mem_filter.1 (Symbol.mem_of_mem_outermost (List.mem_filter.1 h).1)).1

end Outline

namespace SyntaxTree

variable {tree : SyntaxTree} {language : Language} {text : Text} {attachments : List String}

/-- **Members stay apart**: where the first of two closes its last line and the second begins below that line, the
lead of the second begins below it as well, and the whole lines of the two do not overlap. -/
theorem members_stay_apart (hformed : tree.WellFormed text attachments) (strategy : Strategy) (unit : Span) :
    ∀ m₁ ∈ (tree.outline language text).membersIn unit, ∀ m₂ ∈ (tree.outline language text).membersIn unit,
      m₁.lineEnd < m₂.lineStart →
      (tree.outline language text).ClosesLine
        ((tree.outline language text).leads strategy (tree.outline language text).comments) m₁ →
      m₁.lineEnd < (tree.outline language text).memberLine strategy unit m₂ ∧
        m₁.span.stop ≤ (tree.outline language text).memberStart strategy unit m₂ ∧
        ((tree.outline language text).memberSpan strategy unit m₁).stop ≤
          ((tree.outline language text).memberSpan strategy unit m₂).start := by
  intro m₁ hm₁ m₂ _ hbelow hclose
  have hlocated : m₁.Located text := hformed.located (Outline.mem_symbols_of_mem_membersIn hm₁)
  have hline := Outline.lt_leadFrom ((tree.outline language text).lines.lineOf unit.start) hclose hbelow
  exact ⟨hline, Outline.le_memberStart rfl hlocated hline⟩

/-- A class with two methods of a line each, and a comment between them. -/
def methodsText : Text :=
  ['c', 'l', 'a', 's', 's', ' ', 'A', ':', '\n', ' ', 'd', 'e', 'f', ' ', 'f', '(', ')', ':', ' ', '1', '\n', ' ', '#',
    '\n', ' ', 'd', 'e', 'f', ' ', 'g', '(', ')', ':', ' ', '2', '\n']

def methodsTree : SyntaxTree :=
  ⟨.mk "module" true ⟨0, 36⟩ {} [.mk "class_definition" true ⟨0, 35⟩ {} [.mk "block" true ⟨10, 35⟩ {}
    [.mk "function_definition" true ⟨10, 20⟩ {} [], .mk "comment" true ⟨22, 23⟩ {} [],
      .mk "function_definition" true ⟨25, 35⟩ {} []]]], false⟩

/-- Classes may be split, methods may not. -/
def methodsStrategy : Strategy := { maxChunkSize := 8, preserveClasses := false }

theorem methodsTree_wellFormed : methodsTree.WellFormed methodsText Language.python.attachmentKinds := by decide

def firstMethod : Symbol := ⟨none, .method, 2, 2, ⟨10, 20⟩, 1, none⟩

def secondMethod : Symbol := ⟨none, .method, 4, 4, ⟨25, 35⟩, 1, none⟩

theorem symbols_methodsTree : methodsTree.symbols .python methodsText =
    [⟨none, .classDef, 1, 4, ⟨0, 35⟩, 0, none⟩, firstMethod, ⟨none, .comment, 3, 3, ⟨22, 23⟩, 1, none⟩, secondMethod] :=
  (symbols_eq_collect (by decide +kernel)).trans (by decide +kernel)

theorem membersIn_methodsTree :
    (methodsTree.outline .python methodsText).membersIn ⟨0, 36⟩ = [firstMethod, secondMethod] := by
  rw [outline, symbols_methodsTree]
  decide +kernel

/-- The second method begins with the comment, below the first. -/
theorem members_stay_apart_methods :
    methodsTree.WellFormed methodsText Language.python.attachmentKinds ∧
      (methodsTree.outline .python methodsText).memberLine methodsStrategy ⟨0, 36⟩ secondMethod = 3 ∧
      ((methodsTree.outline .python methodsText).memberSpan methodsStrategy ⟨0, 36⟩ firstMethod).stop ≤
        ((methodsTree.outline .python methodsText).memberSpan methodsStrategy ⟨0, 36⟩ secondMethod).start := by
  have hfirst : firstMethod ∈ (methodsTree.outline .python methodsText).membersIn ⟨0, 36⟩ := by
    rw [membersIn_methodsTree]
    exact List.mem_cons_self
  have hsecond : secondMethod ∈ (methodsTree.outline .python methodsText).membersIn ⟨0, 36⟩ := by
    rw [membersIn_methodsTree]
    exact List.mem_cons_of_mem _ List.mem_cons_self
  have hleads : (methodsTree.outline .python methodsText).leads methodsStrategy
      (methodsTree.outline .python methodsText).comments = [⟨none, .comment, 3, 3, ⟨22, 23⟩, 1, none⟩] := by
    rw [outline, symbols_methodsTree]
    decide +kernel
  have hclose : (methodsTree.outline .python methodsText).ClosesLine ((methodsTree.outline .python methodsText).leads
      methodsStrategy (methodsTree.outline .python methodsText).comments) firstMethod := by
    refine ⟨by decide, ?_⟩
    rw [hleads]
    simp [firstMethod]
  refine ⟨methodsTree_wellFormed, ?_, (members_stay_apart methodsTree_wellFormed methodsStrategy ⟨0, 36⟩ firstMethod
    hfirst secondMethod hsecond (by decide) hclose).2.2⟩
  rw [outline, symbols_methodsTree]
  decide +kernel

/-- A class whose first method has nothing but a documentation string in it. -/
def stubText : Text :=
  ['c', 'l', 'a', 's', 's', ' ', 'A', ':', '\n', ' ', ' ', ' ', ' ', 'd', 'e', 'f', ' ', 'f', '(', 's', 'e', 'l', 'f',
    ')', ':', '\n', ' ', ' ', ' ', ' ', ' ', ' ', ' ', ' ', '"', '"', '"', 'f', 'd', '"', '"', '"', '\n', ' ', ' ',
    ' ', ' ', 'd', 'e', 'f', ' ', 'g', '(', 's', 'e', 'l', 'f', ')', ':', ' ', 'p', 'a', 's', 's', '\n']

def stubTree : SyntaxTree :=
  ⟨.mk "module" true ⟨0, 65⟩ {} [.mk "class_definition" true ⟨0, 64⟩ {} [.mk "block" true ⟨13, 64⟩ {}
    [.mk "function_definition" true ⟨13, 42⟩ {} [.mk "block" true ⟨34, 42⟩ {}
      [.mk "expression_statement" true ⟨34, 42⟩ {} [.mk "string" true ⟨34, 42⟩ {} []]]],
    .mk "function_definition" true ⟨47, 64⟩ {} [.mk "block" true ⟨60, 64⟩ {} []]]]], false⟩

def stubMethod : Symbol := ⟨none, .method, 2, 3, ⟨13, 42⟩, 1, none⟩

def nextMethod : Symbol := ⟨none, .method, 4, 4, ⟨47, 64⟩, 1, none⟩

theorem symbols_stubTree : stubTree.symbols .python stubText =
    [⟨none, .classDef, 1, 4, ⟨0, 64⟩, 0, none⟩, stubMethod, ⟨none, .comment, 3, 3, ⟨34, 42⟩, 2, none⟩, nextMethod] :=
  (symbols_eq_collect (by decide +kernel)).trans (by decide +kernel)

theorem membersIn_stubTree :
    (stubTree.outline .python stubText).membersIn ⟨0, 65⟩ = [stubMethod, nextMethod] := by
  rw [outline, symbols_stubTree]
  decide +kernel

/-- A documentation string at the end of a method is climbed over from the method below it. That one then begins
inside the first, and the two are kept whole as one. -/
theorem docstring_joins_members :
    stubTree.WellFormed stubText Language.python.attachmentKinds ∧
      (stubTree.outline .python stubText).units methodsStrategy = [⟨0, 65⟩] ∧
      (stubTree.outline .python stubText).membersIn ⟨0, 65⟩ = [stubMethod, nextMethod] ∧
      stubMethod.lineEnd < nextMethod.lineStart ∧
      ¬ stubMethod.lineEnd < (stubTree.outline .python stubText).memberLine methodsStrategy ⟨0, 65⟩ nextMethod ∧
      stubMethod.span.covers ((stubTree.outline .python stubText).memberStart methodsStrategy ⟨0, 65⟩ nextMethod) ∧
      ((stubTree.outline .python stubText).plan methodsStrategy).mergedSolid = [⟨9, 65⟩] := by
  refine ⟨by decide, ?_, membersIn_stubTree, by decide, ?_, ?_, ?_⟩
  · rw [outline, symbols_stubTree]
    decide +kernel
  · rw [outline, symbols_stubTree]
    decide +kernel
  · rw [outline, symbols_stubTree]
    decide +kernel
  · rw [outline, symbols_stubTree]
    show _ = CutPlan.merge [⟨9, 43⟩, ⟨26, 65⟩]
    exact CutPlan.mergedSolid_of_perm (by decide +kernel) (by decide)

end SyntaxTree
end Chunkwise
