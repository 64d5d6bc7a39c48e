import Chunkwise.Proofs.Text.Position
import Chunkwise.Proofs.Text.Trim
import Chunkwise.Proofs.Tree.Order

/-!
# Names of sections

A section that begins with a heading is named by the first text line of the heading. The run of marks that this line ends
in is dropped whatever stands before it (`headingTitle_eq`), although it closes the heading only behind a blank character:
the name is the stated title exactly if there is no such run, a blank character stands before it, or it lies behind the
characters that are kept (`SplitAtMarks.take_eq_iff`). Together: `SyntaxTree.sections_named_without_marks`. So a mark that
ends a word is lost (`SyntaxTree.mark_of_title_lost`).
-/

namespace Chunkwise

namespace Text

variable {line kept marks : Text}

/-- The characters of a text before its first newline. -/
def firstLine (text : Text) : Text := text.takeWhile (· != '\n')

/-- A line taken apart into what it says and the run of marks that it ends in, which may be empty. -/
structure SplitAtMarks (line kept marks : Text) : Prop where
  eq : line = kept ++ marks
  marks : ∀ c ∈ marks, c = '#'
  kept : kept.getLast? ≠ some '#'

/-- The title that a line states: without the marks at its end if a blank character stands before them. Other marks belong
to the last word. -/
def statedTitle (kept marks : Text) : Text := trim (if kept.getLast?.any isBlankChar then kept else kept ++ marks)

theorem exists_splitAtMarks (line : Text) : ∃ marks, SplitAtMarks line (dropTrailing (· == '#') line) marks := by
  obtain ⟨marks, heq, hmarks, hkept⟩ := exists_dropTrailing (· == '#') line
  exact ⟨marks, heq, fun c hc => by simpa using hmarks c hc, fun hlast => hkept '#' hlast rfl⟩

theorem SplitAtMarks.kept_eq (h : SplitAtMarks line kept marks) : kept = dropTrailing (· == '#') line := by
  rw [h.eq, dropTrailing_append (fun c hc hmark => h.kept (hc.trans (by simpa using hmark)))
    (fun c hc => by simpa using h.marks c hc)]

theorem take_eq_take_append_iff {n : Nat} : kept.take n = (kept ++ marks).take n ↔ marks = [] ∨ n ≤ kept.length := by
  rw [List.take_append, List.self_eq_append_right, List.take_eq_nil_iff, Nat.sub_eq_zero_iff_le, or_comm]

/-- **When dropping the marks makes no difference.** -/
theorem SplitAtMarks.take_eq_iff (h : SplitAtMarks (trim line) kept marks) (n : Nat) :
    (trim kept).take n = (statedTitle kept marks).take n ↔
      marks = [] ∨ kept.getLast?.any isBlankChar ∨ n ≤ kept.length := by
  rw [statedTitle]
  split
  · rename_i hblank
    simp only [hblank, true_or, or_true]
  · rename_i hblank
    -- What is before the marks ends in no blank character, and begins as the line does.
    have hkept : trim kept = kept := by
      refine trim_eq_self (fun c hc => not_isBlankChar_head_trim line ?_) (fun c hc hc' => hblank ?_)
      · rw [h.eq, List.head?_append, hc, Option.some_or]
      · rw [hc, Option.any_some, hc']
    rw [hkept, ← h.eq, trim_trim, h.eq, take_eq_take_append_iff]
    simp only [hblank, Bool.false_eq_true, false_or]

end Text

namespace Node

variable {text raw : Text} {node heading inline : Node}

/-- The first text line of a heading: the first of the inline nodes under it that the search for a name reaches. -/
def firstInline? (heading : Node) : Option Node := ((preorderAll heading.children).take 255).find? (·.kind == "inline")

theorem preorder_subset_preorderAll {nodes : List Node} (h : node ∈ nodes) : node.preorder ⊆ preorderAll nodes := by
  induction nodes with
  | nil => cases h
  | cons first rest ih =>
    rw [preorderAll]
    rcases List.mem_cons.1 h with rfl | h
    · exact List.subset_append_left _ _
    · exact List.subset_append_of_subset_right _ (ih h)

/-- The first text line of a heading among the children of a node is under the node. -/
theorem mem_preorder_of_firstInline? (hheading : heading ∈ node.children) (hinline : heading.firstInline? = some inline) :
    inline ∈ node.preorder := by
  have hunder : inline ∈ heading.preorder := by
    rw [heading.preorder_eq]
    exact List.mem_cons_of_mem _ (List.mem_of_mem_take (List.mem_of_find?_eq_some hinline))
  rw [node.preorder_eq]
  exact List.mem_cons_of_mem _ (preorder_subset_preorderAll hheading hunder)

/-- What names a heading is the text of its first line. -/
theorem descendantName_markdown (h : heading.firstInline? = some inline) (text : Text) :
    heading.descendantName .markdown text = inline.textOf text := by
  have hname : isName .markdown = fun node => node.kind == "inline" := by
    funext node
    simp only [isName, Language.nameKinds, List.contains_cons, List.contains_nil, Bool.or_false]
  rw [descendantName, firstNamed_eq_find?, hname]
  exact congrArg (Option.bind · (textOf text)) h

theorem headingTitle_eq (text : Text) : headingTitle (String.ofList text) =
    String.ofList ((Text.trim (Text.dropTrailing (· == '#') (Text.trim (Text.firstLine text)))).take 120) := by
  rw [headingTitle, String.toList_ofList]
  rfl

/-- The name of a section that begins with a heading. -/
theorem sectionName_eq (hheading : node.namedChildren.head? = some heading)
    (hkind : "_heading".toList.isSuffixOf heading.kind.toList) (hinline : heading.firstInline? = some inline)
    (hraw : text.slice? inline.span = some raw) : node.sectionName .markdown text = if raw.isBlank then none else
      some (String.ofList ((Text.trim (Text.dropTrailing (· == '#') (Text.trim (Text.firstLine raw.trim)))).take 120)) := by
  rw [sectionName, hheading]
  simp only [if_pos hkind, descendantName_markdown hinline, textOf, hraw]
  split
  · rfl
  · rw [Option.map_some, headingTitle_eq]

end Node

/-! ## Sections of a tree -/

namespace Place

variable {p : Place} {text : Text}

/-- In markdown nothing is closed. -/
theorem visited_markdown (p : Place) : p.visited .markdown := by
  simp [visited, Node.isClosed, Language.isComment, Language.isAttachment, Language.commentKinds, Language.attachmentKinds,
    Node.isDocstring]

/-- The symbol of a section is named as the section is. -/
theorem exists_symbol_of_section (hsection : p.node.kind = "section") (text : Text) :
    ∃ s, p.symbol? .markdown text = some s ∧ s.kind = .heading ∧ s.name = p.node.sectionName .markdown text := by
  have hclosed : ¬ p.node.isClosed .markdown := by
    simp [Node.isClosed, Language.isComment, Language.isAttachment, Language.commentKinds, Language.attachmentKinds,
      Node.isDocstring]
  have hkind : p.kind? .markdown = some .heading := by
    rw [kind?_of_open text p.visited_markdown hclosed, hsection]
    rfl
  have hname : p.name? .markdown text = p.node.sectionName .markdown text := by
    rw [name?, if_neg hclosed, hkind]
    rfl
  exact ⟨_, symbol?_eq hkind, rfl, hname⟩

end Place

namespace SyntaxTree

variable {tree : SyntaxTree} {text : Text} {attachments : List String} {p : Place} {heading inline : Node}

/-- **Sections are named by their headings, without the marks at the end.** In a well-formed tree a section that begins with
a heading, and this with a first text line, gives a symbol. Its name is what the line says before the run of marks that it
ends in, cut off after 120 characters. This is the title that the line states exactly if there is no such run, a blank
character stands before it, or 120 characters do. -/
theorem sections_named_without_marks (h : tree.WellFormed text attachments) (hp : p ∈ tree.root.places [])
    (hsection : p.node.kind = "section") (hheading : p.node.namedChildren.head? = some heading)
    (hkind : "_heading".toList.isSuffixOf heading.kind.toList) (hinline : heading.firstInline? = some inline) :
    ∃ s ∈ tree.symbols .markdown text, p.symbol? .markdown text = some s ∧ s.kind = .heading ∧
      ∃ raw, text.slice? inline.span = some raw ∧
        (raw.isBlank → s.name = none) ∧
        (¬ raw.isBlank → ∃ kept marks, Text.SplitAtMarks (Text.trim (Text.firstLine raw.trim)) kept marks ∧
          s.name = some (String.ofList ((Text.trim kept).take 120)) ∧
          (s.name = some (String.ofList ((Text.statedTitle kept marks).take 120)) ↔
            marks = [] ∨ kept.getLast?.any isBlankChar ∨ 120 ≤ kept.length)) := by
  obtain ⟨s, hs, hsKind, hsName⟩ := p.exists_symbol_of_section hsection text
  have hmem : s ∈ tree.symbols .markdown text := mem_symbols_iff_places.2 ⟨p, hp, p.visited_markdown, hs⟩
  have hchild : heading ∈ p.node.children := (List.mem_filter.1 (List.mem_of_head? hheading)).1
  have hplaced := h.placed_of_mem_places hp inline (Node.mem_preorder_of_firstInline? hchild hinline)
  obtain ⟨raw, hraw⟩ := Text.exists_slice? hplaced.start_le hplaced.start_boundary hplaced.stop_boundary
  rw [Node.sectionName_eq hheading hkind hinline hraw] at hsName
  refine ⟨s, hmem, hs, hsKind, raw, hraw, fun hblank => ?_, fun hblank => ?_⟩
  · rw [hsName, if_pos hblank]
  · obtain ⟨marks, hsplit⟩ := Text.exists_splitAtMarks (Text.trim (Text.firstLine raw.trim))
    rw [if_neg hblank] at hsName
    refine ⟨_, marks, hsplit, hsName, ?_⟩
    rw [hsName, Option.some.injEq, String.ofList_inj, hsplit.take_eq_iff]

/-- A heading with a mark that ends its title and one that closes it. -/
def closedText : Text := ['#', ' ', 'B', '#', ' ', '#', '\n']

def closedInline : Node := .mk "inline" true ⟨2, 6⟩ {} [.mk "#" false ⟨3, 4⟩ {} [], .mk "#" false ⟨5, 6⟩ {} []]

def closedHeading : Node := .mk "atx_heading" true ⟨0, 7⟩ {} [.mk "atx_h1_marker" true ⟨0, 1⟩ {} [], closedInline]

def closedSection : Node := .mk "section" true ⟨0, 7⟩ {} [closedHeading]

def closedTree : SyntaxTree := ⟨.mk "document" true ⟨0, 7⟩ {} [closedSection], false⟩

/-- The mark behind a blank is dropped, the one before it stays. -/
theorem sections_named_without_marks_closed : closedTree.WellFormed closedText [] ∧
    (⟨closedSection, [closedTree.root]⟩ : Place) ∈ closedTree.root.places [] ∧
    closedSection.namedChildren.head? = some closedHeading ∧ closedHeading.firstInline? = some closedInline ∧
    ∃ s ∈ closedTree.symbols .markdown closedText, s.kind = .heading ∧ s.name = some "B#" ∧
      Text.SplitAtMarks ['B', '#', ' ', '#'] ['B', '#', ' '] ['#'] ∧
      s.name = some (String.ofList ((Text.statedTitle ['B', '#', ' '] ['#']).take 120)) := by
  have hformed : closedTree.WellFormed closedText [] := by decide +kernel
  have hplace : (⟨closedSection, [closedTree.root]⟩ : Place) ∈ closedTree.root.places [] :=
    List.mem_cons_of_mem _ List.mem_cons_self
  have hheading : closedSection.namedChildren.head? = some closedHeading := by rfl
  have hinline : closedHeading.firstInline? = some closedInline := by rfl
  have hslice : closedText.slice? ⟨2, 6⟩ = some ['B', '#', ' ', '#'] := by decide +kernel
  obtain ⟨s, hmem, -, hkind, raw, hraw, -, hnamed⟩ :=
    sections_named_without_marks hformed hplace rfl hheading (by decide) hinline
  obtain rfl : _ = raw := Option.some.inj (hslice.symm.trans hraw)
  obtain ⟨kept, marks, hsplit, hname, hstated⟩ := hnamed (by decide)
  have hkept : kept = ['B', '#', ' '] := hsplit.kept_eq.trans (by decide +kernel)
  subst hkept
  have hmarks : marks = ['#'] := by
    have hline : Text.trim (Text.firstLine (Text.trim ['B', '#', ' ', '#'])) = ['B', '#', ' '] ++ ['#'] := by decide +kernel
    exact List.append_cancel_left (hsplit.eq.symm.trans hline)
  subst hmarks
  refine ⟨hformed, hplace, hheading, hinline, s, hmem, hkind, hname.trans (by decide +kernel), ?_,
    hstated.2 (Or.inr (Or.inl (by decide)))⟩
  exact ⟨rfl, hsplit.marks, hsplit.kept⟩

/-- A heading whose title ends in a mark. -/
def sharpText : Text := ['#', ' ', 'C', '#', '\n']

def sharpInline : Node := .mk "inline" true ⟨2, 4⟩ {} [.mk "#" false ⟨3, 4⟩ {} []]

def sharpHeading : Node := .mk "atx_heading" true ⟨0, 5⟩ {} [.mk "atx_h1_marker" true ⟨0, 1⟩ {} [], sharpInline]

def sharpSection : Node := .mk "section" true ⟨0, 5⟩ {} [sharpHeading]

def sharpTree : SyntaxTree := ⟨.mk "document" true ⟨0, 5⟩ {} [sharpSection], false⟩

/-- A mark that no blank character stands before is dropped with the closing ones. -/
theorem mark_of_title_lost : sharpTree.WellFormed sharpText [] ∧
    (⟨sharpSection, [sharpTree.root]⟩ : Place) ∈ sharpTree.root.places [] ∧
    sharpSection.namedChildren.head? = some sharpHeading ∧ sharpHeading.firstInline? = some sharpInline ∧
    sharpText.slice? sharpInline.span = some ['C', '#'] ∧ Text.SplitAtMarks ['C', '#'] ['C'] ['#'] ∧
    Text.statedTitle ['C'] ['#'] = ['C', '#'] ∧
    sharpTree.symbols .markdown sharpText = [⟨some "C", .heading, 1, 1, ⟨0, 5⟩, 0, none⟩] := by
  refine ⟨by decide +kernel, List.mem_cons_of_mem _ List.mem_cons_self, rfl, rfl, by decide +kernel,
    ⟨rfl, fun c hc => List.mem_singleton.1 hc, by decide⟩, by decide +kernel, ?_⟩
  exact (symbols_eq_collect (by decide +kernel)).trans (by decide +kernel)

end SyntaxTree
end Chunkwise
