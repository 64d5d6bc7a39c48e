import Chunkwise.Proofs.Chunker.Attachments

/-!
# Comments right above a definition

The climb from a definition looks at one lead only, the last one above it. A comment that ends on the line above is
reached if that lead begins where the comment does and starts its line (`Outline.leadFrom_le_of_shown`), and then no
unit begins between the two (`SyntaxTree.comments_travel`). Another comment behind it on the same line starts no line,
and hides it (`SyntaxTree.comment_hidden_by_comment`).
-/

namespace Chunkwise

namespace Outline

variable {o : Outline} {strategy : Strategy} {c s : Symbol} {floor : Nat}

/-- Whether a comment stands right over a definition: both start their lines, and it ends on the line above. -/
structure StandsRightOver (o : Outline) (c s : Symbol) : Prop where
  free : c ∈ o.freeComments
  opens : o.startsLine c
  starts : o.startsLine s
  adjacent : c.lineEnd + 1 = s.lineStart

/-- Whether the last of some leads above a line begins on the first line of a comment and starts that line. -/
def Shows (o : Outline) (leads : List Symbol) (c : Symbol) (line : Nat) : Prop :=
  ∀ last, (leads.filter (·.lineEnd < line)).getLast? = some last → last.lineStart = c.lineStart ∧ o.startsLine last

/-- **The climb from a definition reaches the comment right above it**, if the last lead shows it. -/
theorem leadFrom_le_of_shown (hdocstrings : strategy.includeDocstrings) (hover : o.StandsRightOver c s)
    (hshown : o.Shows (o.leads strategy o.freeComments) c s.lineStart) (hline : c.lineStart ≤ c.lineEnd)
    (hfloor : floor < c.lineStart) :
    o.leadFrom (o.leads strategy o.freeComments) floor s.lineStart ≤ c.lineStart := by
  have hadjacent := hover.adjacent
  have hmem : c ∈ o.leads strategy o.freeComments := mem_leads.2 (Or.inr ⟨hdocstrings, hover.free⟩)
  obtain ⟨last, -, hlast, habove, hmax⟩ := exists_last_lead hmem (show c.lineEnd < s.lineStart by omega)
  obtain ⟨hfirst, hstarts⟩ := hshown last hlast
  have hends : last.lineEnd + 1 = s.lineStart := by
    have hle := hmax c hmem (by omega)
    omega
  have htouches : o.touches last s.lineStart := by
    rw [touches, hends, beq_self_eq_true, Bool.true_or]
  rw [leadFrom_eq_of_last hlast (by omega) htouches (by omega) hstarts, hfirst]
  exact leadFrom_le o _ _ _

end Outline

namespace SyntaxTree

variable {tree : SyntaxTree} {language : Language} {text : Text}

/-- **Comments travel with the definition below them**: no unit begins between a comment that ends right above a
definition and the definition, if the last lead above the definition shows the comment and no comment begins the line
of the definition. -/
theorem comments_travel (hformed : tree.WellFormed text language.attachmentKinds) {strategy : Strategy}
    (hdocstrings : strategy.includeDocstrings) {before after : List (Symbol × SymbolKind)} {s c : Symbol}
    {kind : SymbolKind} (htop : (tree.outline language text).top = before ++ (s, kind) :: after)
    (hbefore : ∀ u ∈ before, u.1.lineEnd < c.lineStart) (hover : (tree.outline language text).StandsRightOver c s)
    (hshown : (tree.outline language text).Shows
      ((tree.outline language text).leads strategy (tree.outline language text).freeComments) c s.lineStart)
    (halone : ∀ d ∈ (tree.outline language text).freeComments, d.lineStart = s.lineStart →
      ¬ (tree.outline language text).startsLine d) :
    ∀ line ∈ (tree.outline language text).unitLines strategy, ¬ (c.lineStart < line ∧ line ≤ s.lineStart) := by
  have hsound := hformed.sound
  have hlocated : ∀ u ∈ before ++ (s, kind) :: after, u.1.Located text := by
    rw [← htop]
    exact hsound.top
  have hs : s.Located text := hlocated (s, kind) (List.mem_append_right _ List.mem_cons_self)
  have hc := hsound.freeComments c hover.free
  have hends : ∀ u ∈ before, u.1.lineStart ≤ u.1.lineEnd ∧ u.1.lineEnd < c.lineStart := fun u hu =>
    ⟨(hlocated u (List.mem_append_left _ hu)).line_le, hbefore u hu⟩
  have habove : c.lineStart < s.lineStart := by
    have hline := hc.line_le
    have hadjacent := hover.adjacent
    omega
  obtain ⟨hlines, hlead⟩ := Outline.topLines_over kind after hs hover.starts habove
    (fun _ hfloor => Outline.leadFrom_le_of_shown hdocstrings hover hshown hc.line_le hfloor) hends hc.line_pos
  intro line hline ⟨hbelow, hupto⟩
  rcases Outline.mem_unitLines hline with hmem | ⟨d, hd, rfl, hopens, hfree⟩
  · rw [htop] at hmem
    have := hlines line hmem
    omega
  · rw [htop] at hfree
    rcases Nat.lt_or_eq_of_le hupto with hlt | hsame
    · exact hfree (hlead _ (Nat.le_of_lt hbelow) hlt)
    · exact halone d hd hsame hopens

/-- A function right under a comment, and another one before. -/
def gluedText : Text :=
  ['f', 'n', ' ', 'e', '(', ')', ' ', '{', '}', '\n', '/', '/', ' ', 'a', '\n', 'f', 'n', ' ', 'f', '(', ')', ' ',
   '{', '}', '\n']

def gluedTree : SyntaxTree :=
  ⟨.mk "source_file" true ⟨0, 25⟩ {} [.mk "function_item" true ⟨0, 9⟩ {} [], .mk "line_comment" true ⟨10, 14⟩ {} [],
    .mk "function_item" true ⟨15, 24⟩ {} []], false⟩

def gluedComment : Symbol := ⟨none, .comment, 2, 2, ⟨10, 14⟩, 0, none⟩

def gluedFunction : Symbol := ⟨none, .function, 3, 3, ⟨15, 24⟩, 0, none⟩

theorem symbols_gluedTree : gluedTree.symbols .rust gluedText =
    [⟨none, .function, 1, 1, ⟨0, 9⟩, 0, none⟩, gluedComment, gluedFunction] :=
  (symbols_eq_collect (by decide +kernel)).trans (by decide +kernel)

theorem comments_travel_glued :
    gluedTree.WellFormed gluedText Language.rust.attachmentKinds ∧
      (gluedTree.outline .rust gluedText).StandsRightOver gluedComment gluedFunction ∧
      ∀ line ∈ (gluedTree.outline .rust gluedText).unitLines {}, ¬ (2 < line ∧ line ≤ 3) := by
  have hformed : gluedTree.WellFormed gluedText Language.rust.attachmentKinds := by decide
  have htop : (gluedTree.outline .rust gluedText).top =
      [(⟨none, .function, 1, 1, ⟨0, 9⟩, 0, none⟩, .function)] ++ (gluedFunction, .function) :: [] := by
    rw [outline, symbols_gluedTree]
    decide +kernel
  have hover : (gluedTree.outline .rust gluedText).StandsRightOver gluedComment gluedFunction := by
    rw [outline, symbols_gluedTree]
    constructor <;> decide +kernel
  have hshown : (gluedTree.outline .rust gluedText).Shows
      ((gluedTree.outline .rust gluedText).leads {} (gluedTree.outline .rust gluedText).freeComments)
      gluedComment gluedFunction.lineStart := by
    rw [outline, symbols_gluedTree, Outline.leads, List.mergeSort_of_pairwise (by decide +kernel)]
    intro last hlast
    obtain rfl : gluedComment = last := Option.some.inj hlast
    decide +kernel
  have halone : ∀ d ∈ (gluedTree.outline .rust gluedText).freeComments, d.lineStart = gluedFunction.lineStart →
      ¬ (gluedTree.outline .rust gluedText).startsLine d := by
    rw [outline, symbols_gluedTree]
    decide +kernel
  exact ⟨hformed, hover, comments_travel hformed rfl htop (by decide) hover hshown halone⟩

/-- A function right under two comments on one line. -/
def doubledText : Text :=
  ['/', '*', ' ', 'a', ' ', '*', '/', ' ', '/', '/', ' ', 'b', '\n', 'f', 'n', ' ', 'f', '(', ')', ' ', '{', '}',
   '\n']

def doubledTree : SyntaxTree :=
  ⟨.mk "source_file" true ⟨0, 23⟩ {} [.mk "block_comment" true ⟨0, 7⟩ {} [], .mk "line_comment" true ⟨8, 12⟩ {} [],
    .mk "function_item" true ⟨13, 22⟩ {} []], false⟩

def doubledComment : Symbol := ⟨none, .comment, 1, 1, ⟨0, 7⟩, 0, none⟩

def doubledFunction : Symbol := ⟨none, .function, 2, 2, ⟨13, 22⟩, 0, none⟩

theorem symbols_doubledTree : doubledTree.symbols .rust doubledText =
    [doubledComment, ⟨none, .comment, 1, 1, ⟨8, 12⟩, 0, none⟩, doubledFunction] :=
  (symbols_eq_collect (by decide +kernel)).trans (by decide +kernel)

theorem unitLines_doubledTree : (doubledTree.outline .rust doubledText).unitLines {} = [1, 2] := by
  rw [outline, symbols_doubledTree]
  generalize ho : Outline.ofSymbols doubledText _ = o
  have htop : o.top = [(doubledFunction, .function)] := by
    rw [← ho]
    decide +kernel
  have hleads : o.leads {} o.freeComments = o.attachments ++ o.freeComments := by
    refine List.mergeSort_of_pairwise ?_
    rw [← ho]
    decide +kernel
  have hlines : o.topLines {} 0 o.top = [some 2] := by
    rw [htop, Outline.topLines, hleads, ← ho]
    decide +kernel
  rw [Outline.unitLines, hlines, ← ho]
  decide +kernel

/-- The second comment is the last lead above the function, and hides the first: a unit begins at the function. -/
theorem comment_hidden_by_comment :
    doubledTree.WellFormed doubledText Language.rust.attachmentKinds ∧
      (doubledTree.outline .rust doubledText).top = [(doubledFunction, .function)] ∧
      (doubledTree.outline .rust doubledText).StandsRightOver doubledComment doubledFunction ∧
      ∃ line ∈ (doubledTree.outline .rust doubledText).unitLines {},
        doubledComment.lineStart < line ∧ line ≤ doubledFunction.lineStart := by
  have htop : (doubledTree.outline .rust doubledText).top = [(doubledFunction, .function)] := by
    rw [outline, symbols_doubledTree]
    decide +kernel
  have hover : (doubledTree.outline .rust doubledText).StandsRightOver doubledComment doubledFunction := by
    rw [outline, symbols_doubledTree]
    constructor <;> decide +kernel
  refine ⟨by decide, htop, hover, ?_⟩
  rw [unitLines_doubledTree]
  decide

end SyntaxTree
end Chunkwise
