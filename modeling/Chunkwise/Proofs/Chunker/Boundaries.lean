import Chunkwise.Proofs.Chunker.Attachments
import Chunkwise.Proofs.Chunker.Dominant
import Chunkwise.Proofs.Tree.Nested

/-!
# Units cut no definition

A unit that begins with a definition begins above it and below the definitions before it, so that it cuts none of them
(`Outline.not_cut_of_mem_topLines`). A unit that begins with a comment may begin inside a definition, one that ends on
the line of the comment; then nothing is between the start of the line and the comment but blanks and attachments
(`Outline.clearIn_of_clearBetween`). As spans of a tree do not cross, the definition ends before the comment and its
attachments end with it (`Outline.Laminar.clearIn_of_startsLine`). What a unit cuts off a definition is therefore
nothing but blanks and attachments (`SyntaxTree.units_cut_no_definition`).
-/

namespace Chunkwise

/-- What is in the blanks that a slice begins with is blank. -/
theorem Text.isBlankChar_of_lt_blanks {text slice : Text} {span : Span} {i : Nat} {c : Char}
    (h : text.slice? span = some slice) (hc : text[i]? = some c) (hstart : span.start ≤ text.offset i)
    (hstop : text.offset i < span.start + byteLen (slice.takeWhile isBlankChar)) : isBlankChar c := by
  obtain ⟨first, k, last, hfirst, hk, hlast, rfl, hnext, hblank, -⟩ := exists_blanks h
  rw [hnext] at hstop
  exact hblank i c ((offset_le_iff (by omega)).1 hstart) ((offset_lt_iff (by omega)).1 hstop) hc

namespace Outline

variable {o : Outline} {strategy : Strategy} {top : List (Symbol × SymbolKind)} {t : Symbol × SymbolKind}
variable {c : Symbol} {above line pos target : Nat}

/-- Whether there is nothing in a span but blanks and attachments that lie in it. -/
def ClearIn (o : Outline) (span : Span) : Prop :=
  ∀ p ∈ o.text.zipIdx, span.covers (o.text.offset p.2) →
    isBlankChar p.1 ∨ ∃ a ∈ o.attachments, span.encloses a.span ∧ a.span.covers (o.text.offset p.2)

instance (o : Outline) (span : Span) : Decidable (o.ClearIn span) :=
  inferInstanceAs (Decidable (∀ p ∈ o.text.zipIdx, span.covers (o.text.offset p.2) →
    isBlankChar p.1 ∨ ∃ a ∈ o.attachments, span.encloses a.span ∧ a.span.covers (o.text.offset p.2)))

/-! ## Along a line -/

/-- One step of a walk: the blanks ahead reach up to the target, or up to an attachment from whose end it goes on. -/
theorem clearBetween_step (h : o.clearBetween pos target) : ∃ rest, o.text.slice? ⟨pos, target⟩ = some rest ∧
    (pos + Text.byteLen (rest.takeWhile isBlankChar) = target ∨
      ∃ a ∈ o.attachments, a.span.start = pos + Text.byteLen (rest.takeWhile isBlankChar) ∧
        a.span.start < a.span.stop ∧ a.span.stop ≤ target ∧ o.clearBetween a.span.stop target) := by
  rw [clearBetween] at h
  cases hslice : o.text.slice? ⟨pos, target⟩ with
  | none =>
    rw [hslice] at h
    cases h
  | some rest =>
    refine ⟨rest, rfl, ?_⟩
    rw [hslice] at h
    simp only at h
    by_cases hnext : pos + Text.byteLen (rest.takeWhile isBlankChar) = target
    · exact Or.inl hnext
    · rw [if_neg hnext] at h
      cases ha : o.attachments.find? fun a =>
          a.span.start == pos + Text.byteLen (rest.takeWhile isBlankChar) && decide (a.span.stop ≤ target) with
      | none =>
        rw [ha] at h
        cases h
      | some a =>
        rw [ha] at h
        simp only at h
        split at h
        · rename_i hmoves
          have hfound := List.find?_some ha
          simp only [Bool.and_eq_true, beq_iff_eq, decide_eq_true_eq] at hfound
          exact Or.inr ⟨a, List.mem_of_find?_eq_some ha, hfound.1, by omega, hmoves.2, h⟩
        · cases h

/-- A walk along blanks and attachments passes nothing else. -/
theorem clearIn_of_clearBetween (h : o.clearBetween pos target) : o.ClearIn ⟨pos, target⟩ := by
  induction hn : target - pos using Nat.strongRecOn generalizing pos with
  | _ n ih =>
    subst hn
    intro p hp hcovers
    have hc : o.text[p.2]? = some p.1 := List.mem_zipIdx_iff_getElem?.1 hp
    obtain ⟨rest, hslice, hstep⟩ := clearBetween_step h
    have hblanks := Text.isBlankChar_of_lt_blanks hslice hc
    obtain ⟨hstart, hstop⟩ : pos ≤ o.text.offset p.2 ∧ o.text.offset p.2 < target := Span.covers_iff.1 hcovers
    rcases hstep with hnext | ⟨a, ha, hnext, hlt, hend, hrest⟩
    · exact Or.inl (hblanks hstart (by simp only; omega))
    · have hinside : ∀ b : Span, pos ≤ b.start → b.stop ≤ target → Span.encloses ⟨pos, target⟩ b :=
        fun b hfirst hlast => Span.encloses_iff.2 ⟨hfirst, hlast⟩
      rcases Nat.lt_or_ge (o.text.offset p.2) a.span.start with hbefore | hbehind
      · exact Or.inl (hblanks hstart (by simp only; omega))
      · rcases Nat.lt_or_ge (o.text.offset p.2) a.span.stop with hin | hpast
        · exact Or.inr ⟨a, ha, hinside _ (by omega) hend, Span.covers_iff.2 ⟨hbehind, hin⟩⟩
        · have hclear := ih _ (by omega) hrest rfl p hp (Span.covers_iff.2 ⟨hpast, hstop⟩)
          refine hclear.imp_right ?_
          rintro ⟨b, hb, hencloses, hcovers⟩
          refine ⟨b, hb, hinside _ ?_ ?_, hcovers⟩
          · have hfirst : a.span.stop ≤ b.span.start := (Span.encloses_iff.1 hencloses).1
            omega
          · exact (Span.encloses_iff.1 hencloses).2

/-! ## Where units begin -/

/-- **The unit of a definition begins inside no definition**: it begins below what is before its own. -/
theorem not_cut_of_mem_topLines (ho : o.lines = LineTable.ofText o.text) (hlocated : ∀ t ∈ top, t.1.Located o.text)
    (hapart : top.Pairwise fun a b => a.1.span.stop ≤ b.1.span.start)
    (hline : some line ∈ o.topLines strategy above top) (ht : t ∈ top) :
    o.lines.lineStart line ≤ t.1.span.start ∨ t.1.span.stop ≤ o.lines.lineStart line := by
  induction top generalizing above with
  | nil => cases ht
  | cons u top ih =>
    obtain ⟨hu, hlocated⟩ := List.forall_mem_cons.1 hlocated
    obtain ⟨hbehind, hapart⟩ := List.pairwise_cons.1 hapart
    have hbelow := lt_of_mem_topLines hline
    rw [topLines] at hline
    rcases List.mem_cons.1 hline with hfirst | hline
    · split at hfirst
      · -- The climb ends at the first line of `u` or above it, and what is behind `u` begins further down.
        obtain rfl := Option.some.inj hfirst
        have hclimb := leadFrom_le o (o.leads strategy o.freeComments) above u.1.lineStart
        have hupto : o.lines.lineStart (o.leadFrom (o.leads strategy o.freeComments) above u.1.lineStart) ≤
            u.1.span.start := by
          rw [ho]
          exact Nat.le_trans (LineTable.lineStart_le_lineStart (by omega) hclimb) hu.lineStart_le
        refine Or.inl (Nat.le_trans hupto ?_)
        rcases List.mem_cons.1 ht with rfl | ht
        · exact Nat.le_refl _
        · exact Nat.le_trans hu.start_le (hbehind t ht)
      · cases hfirst
    · rcases List.mem_cons.1 ht with rfl | ht
      · have hlow := lt_of_mem_topLines hline
        refine Or.inr (Nat.le_trans hu.le_lineEnd ?_)
        rw [ho]
        exact LineTable.lineEnd_le_lineStart (by omega)
      · exact ih hlocated hapart hline ht

/-- What the symbols of a tree are to the outermost ones: no two spans cross, and a free comment is in none of them. -/
structure Laminar (o : Outline) : Prop where
  apart : o.top.Pairwise fun a b => a.1.span.stop ≤ b.1.span.start
  attachments : ∀ a ∈ o.attachments, ∀ t ∈ o.top, a.span.Nested t.1.span
  comments : ∀ c ∈ o.freeComments, ∀ t ∈ o.top, c.span.Nested t.1.span
  free : ∀ c ∈ o.freeComments, ∀ t ∈ o.top, ¬ t.1.encloses c

/-- A free comment that begins inside a definition begins behind it. -/
theorem Laminar.stop_le_start (h : o.Laminar) (hc : c ∈ o.freeComments) (ht : t ∈ o.top) (hle : c.span.start ≤ c.span.stop)
    (hlt : t.1.span.start < c.span.start) : t.1.span.stop ≤ c.span.start := by
  rcases h.comments c hc t ht with hin | hin | hbefore | hbehind
  · have := (Span.encloses_iff.1 hin).1
    omega
  · exact absurd hin (h.free c hc t ht)
  · omega
  · exact hbehind

/-- **What the line of a comment cuts off a definition** is blanks and attachments of the definition. -/
theorem Laminar.clearIn_of_startsLine (h : o.Laminar) (hlocated : ∀ c ∈ o.freeComments, c.Located o.text)
    (hc : c ∈ o.freeComments) (hstarts : o.startsLine c) (ht : t ∈ o.top)
    (hlt : t.1.span.start < o.lines.lineStart c.lineStart) :
    o.ClearIn ⟨o.lines.lineStart c.lineStart, t.1.span.stop⟩ := by
  simp only [startsLine, Bool.and_eq_true, decide_eq_true_eq] at hstarts
  obtain ⟨hle, hclear⟩ := hstarts
  have hbehind := h.stop_le_start hc ht (hlocated c hc).start_le (Nat.lt_of_lt_of_le hlt hle)
  intro p hp hcovers
  obtain ⟨hstart, hstop⟩ : o.lines.lineStart c.lineStart ≤ o.text.offset p.2 ∧ o.text.offset p.2 < t.1.span.stop :=
    Span.covers_iff.1 hcovers
  have hwalk := clearIn_of_clearBetween hclear p hp (Span.covers_iff.2 ⟨hstart, Nat.lt_of_lt_of_le hstop hbehind⟩)
  refine hwalk.imp_right ?_
  rintro ⟨a, ha, hencloses, hin⟩
  -- The attachment begins inside the definition, and so it ends inside it.
  have hfirst : o.lines.lineStart c.lineStart ≤ a.span.start := (Span.encloses_iff.1 hencloses).1
  obtain ⟨hina, hinb⟩ := Span.covers_iff.1 hin
  refine ⟨a, ha, Span.encloses_iff.2 ⟨hfirst, ?_⟩, hin⟩
  rcases h.attachments a ha t ht with hnested | hnested | hapart | hapart
  · have := (Span.encloses_iff.1 hnested).1
    omega
  · exact (Span.encloses_iff.1 hnested).2
  · omega
  · omega

/-- **A unit that begins inside a definition cuts nothing off it but blanks and attachments.** -/
theorem Laminar.clearIn_of_mem_unitStarts (h : o.Laminar) (hsound : o.Sound) (hpos : pos ∈ o.unitStarts strategy)
    (ht : t ∈ o.top) (hstart : t.1.span.start < pos) (hstop : pos < t.1.span.stop) :
    o.ClearIn ⟨pos, t.1.span.stop⟩ := by
  obtain ⟨line, hline, rfl⟩ := List.mem_map.1 (List.mem_filter.1 hpos).1
  rcases mem_unitLines hline with hmem | ⟨c, hc, rfl, hstarts, -⟩
  · rcases not_cut_of_mem_topLines hsound.lines hsound.top h.apart hmem ht with hle | hle <;> omega
  · exact h.clearIn_of_startsLine hsound.freeComments hc hstarts ht hstart

/-! ## Where definitions lie -/

/-- One of the spans between positions begins no later than a position, and ends behind it or is the last one. -/
theorem exists_mem_spansBetween_around {start : Nat} (stop : Nat) (positions : List Nat) (h : start ≤ pos) :
    ∃ s ∈ spansBetween start stop positions, s.start ≤ pos ∧ (pos < s.stop ∨ s.stop = stop) := by
  induction positions generalizing start with
  | nil => exact ⟨⟨start, stop⟩, List.mem_cons_self, h, Or.inr rfl⟩
  | cons p positions ih =>
    rcases Nat.lt_or_ge pos p with hlt | hge
    · exact ⟨⟨start, p⟩, List.mem_cons_self, h, Or.inl hlt⟩
    · obtain ⟨s, hs, haround⟩ := ih hge
      exact ⟨s, List.mem_cons_of_mem _ hs, haround⟩

/-- Whether a unit holds a span, all of it or all but blanks and attachments at its end. -/
def HoldsBut (o : Outline) (unit span : Span) : Prop :=
  unit.encloses span ∨ (unit.covers span.start ∧ o.ClearIn ⟨unit.stop, span.stop⟩)

theorem Laminar.exists_unit (h : o.Laminar) (hsound : o.Sound) (strategy : Strategy) (ht : t ∈ o.top) :
    ∃ unit ∈ o.units strategy, o.HoldsBut unit t.1.span := by
  have hlocated := hsound.top t ht
  have hend := Text.le_byteLen_of_isBoundary hlocated.stop_boundary
  obtain ⟨unit, hunit, hstart, hstop⟩ :=
    exists_mem_spansBetween_around o.text.byteLen (o.unitStarts strategy) (Nat.zero_le t.1.span.start)
  refine ⟨unit, hunit, ?_⟩
  rcases Nat.lt_or_ge unit.stop t.1.span.stop with hcut | hwhole
  · rcases (ends_of_mem_units hunit).2 with hlast | hpos
    · omega
    · have hin : t.1.span.start < unit.stop := by omega
      exact Or.inr ⟨Span.covers_iff.2 ⟨hstart, hin⟩, h.clearIn_of_mem_unitStarts hsound hpos ht hin hcut⟩
  · exact Or.inl (Span.encloses_iff.2 ⟨hstart, hwhole⟩)

end Outline

namespace SyntaxTree

variable {tree : SyntaxTree} {language : Language} {text : Text}

/-- The spans of the outline of a well-formed tree do not cross. -/
theorem WellFormed.laminar (h : tree.WellFormed text language.attachmentKinds) :
    (tree.outline language text).Laminar where
  apart := pairwise_top h language
  attachments := fun a ha t ht => h.nested (List.mem_filter.1 ha).1 (Outline.mem_of_mem_top ht)
  comments := fun c hc t ht => h.nested (List.mem_filter.1 (List.mem_filter.1 hc).1).1 (Outline.mem_of_mem_top ht)
  free := by
    intro c hc t ht hencloses
    obtain ⟨s, hs, rfl⟩ := List.mem_map.1 ht
    have hfree := (List.mem_filter.1 hc).2
    rw [Bool.not_eq_true', List.any_eq_false] at hfree
    exact hfree s hs hencloses

/-- **Units cut no definition.** Behind the start of a unit inside a definition there is nothing left of the definition
but blanks and attachments; apart from such an end, each definition lies in one unit. -/
theorem units_cut_no_definition (hformed : tree.WellFormed text language.attachmentKinds) (strategy : Strategy) :
    ∀ t ∈ (tree.outline language text).top,
      (∀ pos ∈ (tree.outline language text).unitStarts strategy, t.1.span.start < pos → pos < t.1.span.stop →
        (tree.outline language text).ClearIn ⟨pos, t.1.span.stop⟩) ∧
      ∃ unit ∈ (tree.outline language text).units strategy, (tree.outline language text).HoldsBut unit t.1.span := by
  intro t ht
  refine ⟨fun pos hpos hstart hstop => ?_, hformed.laminar.exists_unit hformed.sound strategy ht⟩
  exact hformed.laminar.clearIn_of_mem_unitStarts hformed.sound hpos ht hstart hstop

/-- A function that ends with an attachment, and a comment behind it. -/
def trailedText : Text := ['f', 'n', ' ', 'a', '(', ')', ' ', '{', '}', '\n', '#', '[', 'x', ']', ' ', '/', '/', '\n']

def trailedTree : SyntaxTree :=
  ⟨.mk "source_file" true ⟨0, 18⟩ {} [.mk "function_item" true ⟨0, 14⟩ {} [.mk "attribute_item" true ⟨10, 14⟩ {} []],
    .mk "line_comment" true ⟨15, 17⟩ {} []], false⟩

def trailedFunction : Symbol := ⟨none, .function, 1, 2, ⟨0, 14⟩, 0, none⟩

theorem symbols_trailedTree : trailedTree.symbols .rust trailedText =
    [trailedFunction, ⟨none, .attachment, 2, 2, ⟨10, 14⟩, 1, none⟩, ⟨none, .comment, 2, 2, ⟨15, 17⟩, 0, none⟩] :=
  (symbols_eq_collect (by decide +kernel)).trans (by decide +kernel)

/-- The unit of the comment begins inside the function and cuts off its attachment. -/
theorem units_cut_no_definition_trailed : trailedTree.WellFormed trailedText Language.rust.attachmentKinds ∧
    (trailedFunction, .function) ∈ (trailedTree.outline .rust trailedText).top ∧
      10 ∈ (trailedTree.outline .rust trailedText).unitStarts { includeDocstrings := false } ∧
        (trailedTree.outline .rust trailedText).ClearIn ⟨10, trailedFunction.span.stop⟩ := by
  have hformed : trailedTree.WellFormed trailedText Language.rust.attachmentKinds := by decide
  have htop : (trailedFunction, .function) ∈ (trailedTree.outline .rust trailedText).top := by
    rw [outline, symbols_trailedTree]
    decide +kernel
  have hpos : 10 ∈ (trailedTree.outline .rust trailedText).unitStarts { includeDocstrings := false } := by
    rw [outline, symbols_trailedTree]
    decide +kernel
  exact ⟨hformed, htop, hpos, (units_cut_no_definition hformed _ _ htop).1 10 hpos (by decide) (by decide)⟩

/-- What is left of the function in the unit before is more than that. -/
example : ¬ (trailedTree.outline .rust trailedText).ClearIn ⟨0, 10⟩ := by
  rw [outline, symbols_trailedTree]
  decide +kernel

end SyntaxTree
end Chunkwise
