import Chunkwise.Proofs.Chunker.Boundaries
import Chunkwise.Proofs.Tree.Wrapped

/-!
# Climbs end, and pass no code

A symbol starts its line if the text before it splits into blanks and whole attachments (`Outline.Splits`). The walk
that finds out takes the blanks ahead at once, and the first attachment that begins behind them. It misses no way to
split the text: attachments begin with no blank, and of two that begin at one position the longer one comes first and is
as good as the other, as attachments do not cross (`Outline.clearBetween_iff`).

A climb from a line goes up from lead to lead. What it passes are the lines of the leads, and blank lines between an
attachment and the line below it (`Outline.passable_of_leadFrom`). In a well-formed tree no walk and no climb goes on
forever (`SyntaxTree.climbs_pass_no_code`).
-/

namespace Chunkwise

namespace Outline

variable {o : Outline} {strategy : Strategy} {comments : List Symbol} {a b : Symbol}
variable {pos target floor line i n : Nat}

/-! ## What is before a symbol on its line -/

/-- Whether the text from a position up to another splits into blanks and whole attachments. -/
inductive Splits (o : Outline) (target : Nat) : Nat → Prop
  | done : Splits o target target
  | blank {pos : Nat} {c : Char} : o.text.charAt? pos = some c → isBlankChar c → Splits o target (pos + c.utf8Size) →
      Splits o target pos
  | attachment {pos : Nat} {a : Symbol} : a ∈ o.attachments → a.span.start = pos → Splits o target a.span.stop →
      Splits o target pos

/-- Whether the attachments of an outline can be told apart from what is before them: each begins with no blank, of two
that begin at one position the longer one comes first, and no two cross. -/
structure Legible (o : Outline) : Prop where
  ink : ∀ a ∈ o.attachments, ∃ c, o.text.charAt? a.span.start = some c ∧ ¬ isBlankChar c
  ordered : o.attachments.Pairwise fun a b => a.le b
  nested : ∀ a ∈ o.attachments, ∀ b ∈ o.attachments, a.span.Nested b.span

theorem Splits.le (hlocated : ∀ a ∈ o.attachments, a.Located o.text) (h : o.Splits target pos) : pos ≤ target := by
  induction h with
  | done => exact Nat.le_refl _
  | blank _ _ _ ih => exact Nat.le_trans (Nat.le_add_right _ _) ih
  | attachment ha hstart _ ih => exact hstart ▸ Nat.le_trans (hlocated _ ha).start_le ih

/-- Blanks before what splits can be split off. -/
theorem Splits.of_blankFrom (h : o.Splits target (o.text.offset (i + n))) (hlen : i + n ≤ o.text.length)
    (hblank : Text.BlankFrom o.text i (i + n)) : o.Splits target (o.text.offset i) := by
  induction n generalizing i with
  | zero => exact h
  | succ n ih =>
    have hc : o.text[i]? = some o.text[i] := List.getElem?_eq_getElem (by omega)
    rw [Nat.add_comm n 1, ← Nat.add_assoc] at h hlen hblank
    have hrest := ih h hlen fun k c hik hkj => hblank k c (by omega) hkj
    rw [Text.offset_succ hc] at hrest
    exact .blank (by rw [Text.charAt?_offset, hc]) (hblank i _ (Nat.le_refl i) (by omega) hc) hrest

/-- What splits does so behind the blanks that it begins with: no attachment begins with one of them. -/
theorem Splits.behind_blanks (h : o.Splits target (o.text.offset i)) (ho : o.Legible) (hlen : i + n ≤ o.text.length)
    (hle : o.text.offset (i + n) ≤ target) (hblank : Text.BlankFrom o.text i (i + n)) :
    o.Splits target (o.text.offset (i + n)) := by
  induction n generalizing i with
  | zero => exact h
  | succ n ih =>
    have hc : o.text[i]? = some o.text[i] := List.getElem?_eq_getElem (by omega)
    have hchar : o.text.charAt? (o.text.offset i) = some o.text[i] := by rw [Text.charAt?_offset, hc]
    rw [Nat.add_comm n 1, ← Nat.add_assoc] at hlen hle hblank ⊢
    cases h with
    | done =>
      have hlt : o.text.offset i < o.text.offset (i + 1 + n) := Text.offset_lt_offset (by omega) hlen
      omega
    | blank hfirst _ hrest =>
      obtain rfl := Option.some.inj (hchar.symm.trans hfirst)
      rw [← Text.offset_succ hc] at hrest
      exact ih hrest hlen hle fun k c hik hkj => hblank k c (by omega) hkj
    | attachment ha hstart _ =>
      obtain ⟨c, hfirst, hink⟩ := ho.ink _ ha
      rw [hstart, hchar] at hfirst
      obtain rfl := Option.some.inj hfirst
      exact absurd (hblank i _ (Nat.le_refl i) (by omega) hc) hink

/-- What begins with no blank splits into nothing at all, or begins with an attachment. -/
theorem Splits.done_or_attachment {c : Char} (h : o.Splits target pos) (hc : o.text.charAt? pos = some c)
    (hink : ¬ isBlankChar c) :
    pos = target ∨ ∃ a ∈ o.attachments, a.span.start = pos ∧ o.Splits target a.span.stop := by
  cases h with
  | done => exact Or.inl rfl
  | blank hfirst hblank _ =>
    obtain rfl := Option.some.inj (hc.symm.trans hfirst)
    exact absurd hblank hink
  | attachment ha hstart hrest => exact Or.inr ⟨_, ha, hstart, hrest⟩

/-- What splits from inside an attachment does so from its end. -/
theorem Splits.from_stop (h : o.Splits target pos) (hsound : o.Sound) (ho : o.Legible) (hb : b ∈ o.attachments)
    (hstart : b.span.start < pos) (hstop : pos ≤ b.span.stop) (hle : b.span.stop ≤ target) :
    o.Splits target b.span.stop := by
  induction h with
  | done =>
    obtain rfl : b.span.stop = target := Nat.le_antisymm hle hstop
    exact .done
  | @blank pos c hc hblank hrest ih =>
    rcases Nat.eq_or_lt_of_le hstop with heq | hlt
    · rw [← heq]
      exact .blank hc hblank hrest
    · obtain ⟨i, rfl, hchar⟩ := Text.charAt?_eq_some_iff.1 hc
      obtain ⟨j, hj, hend⟩ := Text.isBoundary_iff.1 (hsound.attachments b hb).stop_boundary
      rw [hend] at hlt
      have hnext := Text.offset_le_offset o.text ((Text.offset_lt_iff hj).1 hlt)
      rw [Text.offset_succ hchar, ← hend] at hnext
      exact ih (by omega) hnext
  | @attachment pos a ha hfirst hrest ih =>
    rcases Nat.eq_or_lt_of_le hstop with heq | hlt
    · rw [← heq]
      exact .attachment ha hfirst hrest
    · have hsize := hsound.attachment_lt a ha
      refine ih (by omega) ?_
      rcases ho.nested a ha b hb with hin | hin | hbefore | hbehind
      · have := (Span.encloses_iff.1 hin).1
        omega
      · exact (Span.encloses_iff.1 hin).2
      · omega
      · omega

/-- The first attachment that a walk finds where another one begins is as good as that one: it is no shorter. -/
theorem exists_found_of_splits (hsound : o.Sound) (ho : o.Legible) (ha : a ∈ o.attachments)
    (hstart : a.span.start = pos) (h : o.Splits target a.span.stop) : ∃ b ∈ o.attachments,
      (o.attachments.find? fun b => b.span.start == pos && b.span.stop ≤ target) = some b ∧
        (pos < b.span.stop ∧ b.span.stop ≤ target) ∧ o.Splits target b.span.stop := by
  have htest : (a.span.start == pos && decide (a.span.stop ≤ target)) = true := by
    rw [Bool.and_eq_true, beq_iff_eq, decide_eq_true_eq]
    exact ⟨hstart, h.le hsound.attachments⟩
  cases hfind : o.attachments.find? fun b => b.span.start == pos && decide (b.span.stop ≤ target) with
  | none => exact absurd htest (List.find?_eq_none.1 hfind a ha)
  | some b =>
    have hb := List.mem_of_find?_eq_some hfind
    have hfound := List.find?_some hfind
    simp only [Bool.and_eq_true, beq_iff_eq, decide_eq_true_eq] at hfound
    have hsize := hsound.attachment_lt b hb
    refine ⟨b, hb, rfl, ⟨by omega, hfound.2⟩, ?_⟩
    rcases eq_or_rel_of_find? ho.ordered hfind ha htest with rfl | hle
    · exact h
    · have hlonger : a.span.stop ≤ b.span.stop := by
        rw [Symbol.le_iff] at hle
        omega
      have := hsound.attachment_lt a ha
      exact h.from_stop hsound ho hb (by omega) hlonger hfound.2

/-- **A walk along blanks and attachments finds a way to split the text** if there is one. -/
theorem clearBetween_iff (hsound : o.Sound) (ho : o.Legible) (hle : pos ≤ target) (hpos : o.text.isBoundary pos)
    (htarget : o.text.isBoundary target) : o.clearBetween pos target ↔ o.Splits target pos := by
  induction hn : target - pos using Nat.strongRecOn generalizing pos with
  | _ m ih =>
    subst hn
    obtain ⟨slice, hslice⟩ := Text.exists_slice? hle hpos htarget
    obtain ⟨i, k, j, hik, hkj, hj, hspan, hnext, hblank, hlast⟩ := Text.exists_blanks hslice
    obtain ⟨n, rfl⟩ := Nat.exists_eq_add_of_le hik
    obtain ⟨rfl, rfl⟩ := Span.mk.inj hspan
    simp only at hnext
    constructor
    · intro h
      obtain ⟨_, hsame, hstep⟩ := clearBetween_step h
      obtain rfl := Option.some.inj (hslice.symm.trans hsame)
      rw [hnext] at hstep
      refine Splits.of_blankFrom ?_ (Nat.le_trans hkj hj) hblank
      rcases hstep with hdone | ⟨a, ha, hstart, hsize, hstop, hrest⟩
      · rw [hdone]
        exact .done
      · have := Text.offset_le_offset o.text hik
        have hsplits := (ih _ (by omega) hstop (hsound.attachments a ha).stop_boundary rfl).1 hrest
        exact .attachment ha hstart hsplits
    · intro h
      have hbehind := h.behind_blanks ho (Nat.le_trans hkj hj) (Text.offset_le_offset o.text hkj) hblank
      rw [clearBetween, hslice]
      simp only [hnext]
      have hcases : o.text.offset (i + n) = o.text.offset j ∨
          ∃ a ∈ o.attachments, a.span.start = o.text.offset (i + n) ∧ o.Splits (o.text.offset j) a.span.stop := by
        rcases hlast with rfl | ⟨c, hc, hink⟩
        · exact Or.inl rfl
        · exact hbehind.done_or_attachment (by rw [Text.charAt?_offset, hc]) hink
      rcases hcases with hdone | ⟨a, ha, hstart, hrest⟩
      · rw [if_pos hdone]
      · have hne : o.text.offset (i + n) ≠ o.text.offset j := by
          have := hrest.le hsound.attachments
          have := hsound.attachment_lt a ha
          omega
        obtain ⟨b, hb, hfind, hmoves, hrest⟩ := exists_found_of_splits hsound ho ha hstart hrest
        have := Text.offset_le_offset o.text hik
        rw [if_neg hne, hfind]
        simp only [dif_pos hmoves]
        exact (ih _ (by omega) hmoves.2 (hsound.attachments b hb).stop_boundary rfl).2 hrest

/-! ## What is above a line -/

/-- Whether a climb may pass a line: it is blank, or on the lines of an attachment or of a comment that is kept. -/
def Passable (o : Outline) (strategy : Strategy) (comments : List Symbol) (line : Nat) : Prop :=
  Text.isBlank (o.lines.lineText line) ∨ (∃ a ∈ o.attachments, a.lineStart ≤ line ∧ line ≤ a.lineEnd) ∨
    (strategy.includeDocstrings ∧ ∃ c ∈ comments, c.lineStart ≤ line ∧ line ≤ c.lineEnd)

theorem passable_of_lead {lead : Symbol} (hlead : lead ∈ o.leads strategy comments) (hfirst : lead.lineStart ≤ n)
    (hlast : n ≤ lead.lineEnd) : o.Passable strategy comments n := by
  rcases mem_leads.1 hlead with hlead | ⟨hkept, hlead⟩
  · exact Or.inr (Or.inl ⟨lead, hlead, hfirst, hlast⟩)
  · exact Or.inr (Or.inr ⟨hkept, lead, hlead, hfirst, hlast⟩)

/-- **What a climb passes** are the lines of leads, and blank lines. -/
theorem passable_of_leadFrom (hreach : o.leadFrom (o.leads strategy comments) floor line ≤ n) (hlt : n < line) :
    o.Passable strategy comments n := by
  induction line using Nat.strongRecOn with
  | _ line ih =>
    rcases leadFrom_cases o (o.leads strategy comments) floor line with
      hstay | ⟨lead, hlead, -, hup, htouches, -, -, hclimb⟩
    · omega
    · rw [hclimb] at hreach
      rcases Nat.lt_or_ge n lead.lineStart with habove | hfirst
      · exact ih _ hup hreach habove
      · rcases Nat.lt_or_ge lead.lineEnd n with hbelow | hlast
        · exact Or.inl (isBlank_of_touches htouches hbelow hlt)
        · exact passable_of_lead hlead hfirst hlast

/-- A climb that goes up at all ends below its floor. -/
theorem floor_lt_leadFrom {leads : List Symbol} (h : o.leadFrom leads floor line < line) :
    floor < o.leadFrom leads floor line := by
  rcases leadFrom_cases o leads floor line with hstay | ⟨lead, -, -, -, -, hfloor, -, hclimb⟩
  · omega
  · rw [hclimb]
    exact lt_leadFrom_of_le (Nat.le_refl floor) hfloor

end Outline

namespace SyntaxTree

variable {tree : SyntaxTree} {language : Language} {text : Text} {s : Symbol}

/-- Whether each attachment of a tree begins with a character that is not blank. -/
def AttachmentsBeginWithInk (language : Language) (text : Text) (tree : SyntaxTree) : Prop :=
  ∀ node ∈ tree.root.preorder, language.isAttachment node.kind →
    (text.charAt? node.span.start).any fun c => !isBlankChar c

instance (language : Language) (text : Text) (tree : SyntaxTree) :
    Decidable (tree.AttachmentsBeginWithInk language text) :=
  inferInstanceAs (Decidable (∀ node ∈ tree.root.preorder, language.isAttachment node.kind →
    (text.charAt? node.span.start).any fun c => !isBlankChar c))

theorem WellFormed.legible (h : tree.WellFormed text language.attachmentKinds)
    (hink : tree.AttachmentsBeginWithInk language text) : (tree.outline language text).Legible where
  ink := by
    intro a ha
    obtain ⟨hmem, hkind⟩ := List.mem_filter.1 ha
    obtain ⟨node, hnode, hmakes⟩ := exists_node_of_mem_symbols hmem
    obtain ⟨c, hc, hblank⟩ := (Option.any_eq_true _ _).1 (hink node hnode (hmakes.attached (beq_iff_eq.1 hkind)))
    rw [hmakes.span_eq]
    exact ⟨c, hc, by simpa using hblank⟩
  ordered := (List.pairwise_mergeSort Symbol.le_trans Symbol.le_total _).filter _
  nested := fun a ha b hb => h.nested (List.mem_filter.1 ha).1 (List.mem_filter.1 hb).1

theorem WellFormed.startsLine?_eq (h : tree.WellFormed text language.attachmentKinds)
    (hs : s ∈ tree.symbols language text) :
    (tree.outline language text).startsLine? s = some ((tree.outline language text).startsLine s) :=
  (Outline.yields_startsLine rfl fun hsound => hsound.symbols s hs).eq_some h.sound

/-- A symbol starts its line if what is before it there splits into blanks and whole attachments. -/
theorem WellFormed.startsLine_iff (h : tree.WellFormed text language.attachmentKinds)
    (hink : tree.AttachmentsBeginWithInk language text) (hs : s ∈ tree.symbols language text) :
    (tree.outline language text).startsLine s ↔
      (tree.outline language text).Splits s.span.start ((LineTable.ofText text).lineStart s.lineStart) := by
  have hlocated : s.Located text := h.located hs
  have hiff := Outline.clearBetween_iff h.sound (h.legible hink) hlocated.lineStart_le
    (Text.isBoundary_lineStart text s.lineStart) hlocated.start_boundary
  rw [← hiff, Outline.startsLine, Bool.and_eq_true, decide_eq_true_eq]
  exact and_iff_right hlocated.lineStart_le

/-- **Climbs end, and pass no code.** -/
theorem climbs_pass_no_code (hformed : tree.WellFormed text language.attachmentKinds)
    (hink : tree.AttachmentsBeginWithInk language text) :
    (∀ s ∈ tree.symbols language text, ∃ starts,
        (tree.outline language text).startsLine? s = some starts ∧
          (starts ↔ (tree.outline language text).Splits s.span.start
            ((LineTable.ofText text).lineStart s.lineStart))) ∧
      ∀ (strategy : Strategy) (comments : List Symbol), (∀ c ∈ comments, c ∈ tree.symbols language text) →
        ∀ floor anchor, ∃ line,
          (tree.outline language text).leadFrom? ((tree.outline language text).leads strategy comments) floor anchor =
              some line ∧
            line ≤ anchor ∧ (line < anchor → floor < line) ∧
            ∀ passed, line ≤ passed → passed < anchor →
              (tree.outline language text).Passable strategy comments passed := by
  constructor
  · intro s hs
    exact ⟨_, hformed.startsLine?_eq hs, hformed.startsLine_iff hink hs⟩
  · intro strategy comments hcomments floor anchor
    have hlocated : ∀ lead ∈ (tree.outline language text).leads strategy comments, lead.Located text :=
      hformed.sound.located_leads (fun c hc => hformed.located (hcomments c hc)) strategy
    have hends := (Outline.yields_leadFrom (o := tree.outline language text) rfl (fun _ => hlocated) floor
      anchor).eq_some hformed.sound
    exact ⟨_, hends, Outline.leadFrom_le _ _ _ _, Outline.floor_lt_leadFrom, fun _ => Outline.passable_of_leadFrom⟩

/-- A function under a comment, a blank line and two attachments on one line. -/
def annotatedText : Text :=
  ['#', '[', 'a', ']', ' ', '#', '[', 'b', ']', '\n', '\n', '/', '/', ' ', 'c', '\n', 'f', 'n', ' ', 'f', '(', ')',
    ' ', '{', '}', '\n']

def annotatedTree : SyntaxTree :=
  ⟨.mk "source_file" true ⟨0, 26⟩ {} [.mk "attribute_item" true ⟨0, 4⟩ {} [], .mk "attribute_item" true ⟨5, 9⟩ {} [],
    .mk "line_comment" true ⟨11, 15⟩ {} [], .mk "function_item" true ⟨16, 25⟩ {} []], false⟩

def secondAttachment : Symbol := ⟨none, .attachment, 1, 1, ⟨5, 9⟩, 0, none⟩

def annotatedComment : Symbol := ⟨none, .comment, 3, 3, ⟨11, 15⟩, 0, none⟩

theorem symbols_annotatedTree : annotatedTree.symbols .rust annotatedText =
    [firstAttachment, secondAttachment, annotatedComment, ⟨none, .function, 4, 4, ⟨16, 25⟩, 0, none⟩] :=
  (symbols_eq_collect (by decide +kernel)).trans (by decide +kernel)

/-- The second attachment starts its line behind the first one. The climb from the function passes the comment, the
blank line and the attachments. -/
theorem climbs_pass_no_code_annotated :
    annotatedTree.WellFormed annotatedText Language.rust.attachmentKinds ∧
      annotatedTree.AttachmentsBeginWithInk .rust annotatedText ∧
      secondAttachment ∈ annotatedTree.symbols .rust annotatedText ∧
      (annotatedTree.outline .rust annotatedText).startsLine? secondAttachment = some true ∧
      (annotatedTree.outline .rust annotatedText).Splits 5 0 ∧
      (annotatedTree.outline .rust annotatedText).leadFrom?
          ((annotatedTree.outline .rust annotatedText).leads {} [annotatedComment]) 0 4 = some 1 ∧
        ∀ passed, 1 ≤ passed → passed < 4 →
          (annotatedTree.outline .rust annotatedText).Passable {} [annotatedComment] passed := by
  have hformed : annotatedTree.WellFormed annotatedText Language.rust.attachmentKinds := by decide
  have hink : annotatedTree.AttachmentsBeginWithInk .rust annotatedText := by decide +kernel
  have hmem : secondAttachment ∈ annotatedTree.symbols .rust annotatedText := by
    rw [symbols_annotatedTree]
    decide
  have hcomments : ∀ c ∈ [annotatedComment], c ∈ annotatedTree.symbols .rust annotatedText := by
    rw [symbols_annotatedTree]
    decide
  have hstarts : (annotatedTree.outline .rust annotatedText).startsLine? secondAttachment = some true := by
    rw [outline, symbols_annotatedTree]
    decide +kernel
  have hclimb : (annotatedTree.outline .rust annotatedText).leadFrom?
      ((annotatedTree.outline .rust annotatedText).leads {} [annotatedComment]) 0 4 = some 1 := by
    rw [outline, symbols_annotatedTree, Outline.leads, List.mergeSort_of_pairwise (by decide +kernel)]
    decide +kernel
  obtain ⟨hwalks, hclimbs⟩ := climbs_pass_no_code hformed hink
  obtain ⟨starts, hfound, hiff⟩ := hwalks secondAttachment hmem
  obtain ⟨line, hline, -, -, hpassed⟩ := hclimbs {} [annotatedComment] hcomments 0 4
  obtain rfl := Option.some.inj (hstarts.symm.trans hfound)
  obtain rfl := Option.some.inj (hclimb.symm.trans hline)
  exact ⟨hformed, hink, hmem, hstarts, hiff.1 rfl, hclimb, hpassed⟩

end SyntaxTree
end Chunkwise
