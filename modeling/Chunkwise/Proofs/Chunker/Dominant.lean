import Chunkwise.Proofs.Chunk.Labels
import Chunkwise.Proofs.Chunker.Units
import Chunkwise.Proofs.Symbol.Outermost
import Chunkwise.Proofs.Symbol.Vote

/-!
# The kind that labels a chunk

The winner of a vote comes before all other kinds (`Vote.le_best`), so that the label of a vote is that of the greatest
share (`Vote.dominates_dominantKind`). Outermost symbols do not overlap (`SyntaxTree.pairwise_top`), and the overlaps
that vote therefore add up to the number of bytes that a kind covers (`Span.share_of_pairwise`): a chunk is labelled by
the kind that covers most bytes of it (`Chunker.chunks_labelled_by_bytes`). This is the kind that covers most of its
characters if the definitions in it are written in characters of one byte, and need not be otherwise
(`Chunker.label_counts_bytes`).
-/

namespace Chunkwise

/-- Whether a label is that of the kind with the greatest share of a whole, of equal ones that of the highest rank. It
takes half of the whole to be more than one of a mixture. -/
def ChunkType.Dominates (share : SymbolKind → Nat) (whole : Nat) : ChunkType → Prop
  | .of kind => 0 < whole ∧ whole ≤ share kind * 2 ∧
      ∀ other, share other < share kind ∨ (share other = share kind ∧ other.rank ≤ kind.rank)
  | .mixed => whole = 0 ∨ ∀ kind, share kind * 2 < whole
  | .fallback => False

instance SymbolKind.decidableForall {p : SymbolKind → Prop} [DecidablePred p] : Decidable (∀ kind, p kind) :=
  decidable_of_iff (∀ kind ∈ SymbolKind.all, p kind) ⟨fun h kind => h kind (mem_all kind), fun h kind _ => h kind⟩

instance (share : SymbolKind → Nat) (whole : Nat) : (type : ChunkType) → Decidable (type.Dominates share whole)
  | .of kind => inferInstanceAs (Decidable (0 < whole ∧ whole ≤ share kind * 2 ∧
      ∀ other, share other < share kind ∨ (share other = share kind ∧ other.rank ≤ kind.rank)))
  | .mixed => inferInstanceAs (Decidable (whole = 0 ∨ ∀ kind, share kind * 2 < whole))
  | .fallback => inferInstanceAs (Decidable False)

/-! ## The winner of a vote -/

namespace Vote

/-- No kind has more weight than the winner, and none as much of a higher rank. -/
theorem le_best (votes : List (SymbolKind × Nat)) (kind : SymbolKind) :
    weightOf votes kind < weightOf votes (best votes) ∨
      (weightOf votes kind = weightOf votes (best votes) ∧ kind.rank ≤ (best votes).rank) := by
  by_cases heq : kind = best votes
  · rw [← heq]
    exact Or.inr ⟨rfl, Nat.le_refl _⟩
  · have hahead := wins_best votes kind heq
    simp only [Ahead, counted] at hahead
    omega

/-- The label of a vote is that of the kind with the greatest weight. -/
theorem dominates_dominantKind (votes : List (SymbolKind × Nat)) :
    (dominantKind votes).Dominates (weightOf votes) (total votes) := by
  have hbest := le_best votes
  rw [dominantKind]
  split
  · rename_i h
    simp only [Bool.and_eq_true, decide_eq_true_eq] at h
    exact ⟨h.1, h.2, hbest⟩
  · rename_i h
    simp only [Bool.and_eq_true, decide_eq_true_eq, not_and, Nat.not_le] at h
    rcases Nat.eq_zero_or_pos (total votes) with hzero | hpos
    · exact Or.inl hzero
    · refine Or.inr fun kind => ?_
      have hhalf := h hpos
      have hle := hbest kind
      omega

end Vote

/-! ## What spans cover of a span -/

namespace Span

variable {span : Span} {spans : List Span} {counts : Nat → Bool}

/-- Number of positions of a span, of those that count, that lie in one of some spans. -/
def share (counts : Nat → Bool) (spans : List Span) (span : Span) : Nat :=
  (List.range' span.start (span.stop - span.start)).countP fun pos => counts pos && spans.any (·.covers pos)

theorem countP_covers (s : Span) (start n : Nat) :
    (List.range' start n).countP s.covers = s.shared ⟨start, start + n⟩ := by
  induction n generalizing start with
  | zero =>
    simp only [List.range'_zero, List.countP_nil, shared]
    omega
  | succ n ih =>
    rw [List.range'_succ, List.countP_cons, ih]
    simp only [shared, covers, Bool.and_eq_true, decide_eq_true_eq]
    split <;> omega

theorem countP_or_of_disjoint {p q : Nat → Bool} {xs : List Nat} (h : ∀ x ∈ xs, p x → ¬ q x) :
    xs.countP (fun x => p x || q x) = xs.countP p + xs.countP q := by
  rw [List.countP_eq_countP_filter_add _ _ p, List.countP_filter, List.countP_filter]
  congr 1
  · refine List.countP_congr fun x _ => ?_
    cases p x <;> simp
  · refine List.countP_congr fun x hx => ?_
    have hnot := h x hx
    cases hp : p x with
    | false => simp
    | true => simp [hnot hp]

/-- What spans that do not overlap cover adds up. -/
theorem share_of_pairwise (h : spans.Pairwise fun a b => a.stop ≤ b.start) (hle : span.start ≤ span.stop) :
    span.share (fun _ => true) spans = totalOf (·.shared span) spans := by
  induction spans with
  | nil => simp [share]
  | cons s rest ih =>
    obtain ⟨hbehind, hrest⟩ := List.pairwise_cons.1 h
    have hown := countP_covers s span.start (span.stop - span.start)
    rw [Nat.add_sub_cancel' hle] at hown
    have hapart : ∀ pos, s.covers pos → ¬ rest.any (·.covers pos) := by
      intro pos hs hany
      obtain ⟨t, ht, htpos⟩ := List.any_eq_true.1 hany
      have hle := hbehind t ht
      simp only [covers_iff] at hs htpos
      omega
    rw [totalOf_cons, ← ih hrest, ← hown]
    simp only [share, Bool.true_and, List.any_cons]
    exact countP_or_of_disjoint fun pos _ => hapart pos

/-- Positions make no difference where all that are covered count. -/
theorem share_of_counts (h : ∀ pos, span.covers pos → ∀ s ∈ spans, s.covers pos → counts pos) :
    span.share counts spans = span.share (fun _ => true) spans := by
  refine List.countP_congr fun pos hpos => ?_
  have hcovers : span.covers pos := by
    have hrange := List.mem_range'_1.1 hpos
    simp only [covers_iff]
    omega
  rw [Bool.true_and, Bool.and_eq_true, and_iff_right_iff_imp]
  intro hany
  obtain ⟨s, hs, hspos⟩ := List.any_eq_true.1 hany
  exact h pos hcovers s hs hspos

end Span

/-! ## Outermost symbols -/

theorem SyntaxTree.pairwise_top {tree : SyntaxTree} {text : Text} {attachments : List String}
    (h : tree.WellFormed text attachments) (language : Language) :
    (tree.outline language text).top.Pairwise fun a b => a.1.span.stop ≤ b.1.span.start := by
  refine List.pairwise_map.2 (Symbol.pairwise_outermostFrom fun s hs => ?_)
  exact (h.located (List.mem_filter.1 hs).1).start_le

namespace Outline

variable {o : Outline} {span : Span} {counts : Nat → Bool}

/-- The spans of the outermost symbols that count as some kinds. -/
def topSpans (o : Outline) (kinds : SymbolKind → Bool) : List Span := (o.top.filter (kinds ·.2)).map (·.1.span)

/-- Whether a label is that of the kind whose outermost symbols cover most of a span, of the positions that count. -/
def LabelledBy (o : Outline) (counts : Nat → Bool) (span : Span) (type : ChunkType) : Prop :=
  type.Dominates (fun kind => span.share counts (o.topSpans (· == kind))) (span.share counts (o.topSpans fun _ => true))

instance (o : Outline) (counts : Nat → Bool) (span : Span) (type : ChunkType) :
    Decidable (o.LabelledBy counts span type) := inferInstanceAs (Decidable (type.Dominates _ _))

/-- The votes of outermost symbols are the bytes that their kinds cover. -/
theorem total_votes (h : o.top.Pairwise fun a b => a.1.span.stop ≤ b.1.span.start) (hle : span.start ≤ span.stop)
    (kinds : SymbolKind → Bool) :
    Vote.total ((o.top.map fun t => (t.2, t.1.overlap span)).filter (kinds ·.1)) =
      span.share (fun _ => true) (o.topSpans kinds) := by
  have hapart : (o.topSpans kinds).Pairwise fun a b => a.stop ≤ b.start := List.pairwise_map.2 (h.filter _)
  rw [Span.share_of_pairwise hapart hle, List.filter_map, Vote.total, totalOf_map, topSpans, totalOf_map]
  rfl

/-- An outline labels a span by the kind that covers most of its bytes. -/
theorem labelledBy_label (h : o.top.Pairwise fun a b => a.1.span.stop ≤ b.1.span.start) (hle : span.start ≤ span.stop) :
    o.LabelledBy (fun _ => true) span (o.label span).type := by
  have hlabel := Vote.dominates_dominantKind (o.top.map fun t => (t.2, t.1.overlap span))
  have hkind : Vote.weightOf (o.top.map fun t => (t.2, t.1.overlap span)) =
      fun kind => span.share (fun _ => true) (o.topSpans (· == kind)) :=
    funext fun kind => total_votes h hle (· == kind)
  have hall : Vote.total (o.top.map fun t => (t.2, t.1.overlap span)) =
      span.share (fun _ => true) (o.topSpans fun _ => true) := by
    rw [← total_votes h hle, List.filter_eq_self.2 fun _ _ => rfl]
  rw [hkind, hall] at hlabel
  exact hlabel

/-- A label by some positions is one by all, where all that outermost symbols cover count. -/
theorem labelledBy_of_counts {type : ChunkType}
    (hcounts : ∀ pos, span.covers pos → ∀ t ∈ o.top, t.1.span.covers pos → counts pos)
    (h : o.LabelledBy (fun _ => true) span type) : o.LabelledBy counts span type := by
  have hshare : ∀ kinds, span.share counts (o.topSpans kinds) = span.share (fun _ => true) (o.topSpans kinds) := by
    intro kinds
    refine Span.share_of_counts fun pos hpos s hs hspos => ?_
    obtain ⟨t, ht, rfl⟩ := List.mem_map.1 hs
    exact hcounts pos hpos t (List.mem_filter.1 ht).1 hspos
  rw [LabelledBy, funext fun kind => hshare (· == kind), hshare]
  exact h

end Outline

/-- Whether a character begins at a position. -/
def Text.beginsChar (text : Text) (pos : Nat) : Bool := (text.charAt? pos).isSome

namespace Chunker

open SyntaxTree

/-- **A chunk is labelled by the kind that covers most of its bytes**, of equal ones by that of the highest rank. This
goes by characters as well if each byte of it that a definition covers begins a character. -/
theorem chunks_labelled_by_bytes (parser : Parser) (grammars : Grammars) (language : Language) (document : Document)
    (strategy : Strategy) (hloaded : grammars.isLoaded language)
    (hformed : (parser language document.content).WellFormed document.content language.attachmentKinds) :
    ∃ chunks, (code parser grammars language).chunk document strategy = .ok chunks ∧ ∀ c ∈ chunks,
      ((parser language document.content).outline language document.content).LabelledBy (fun _ => true) c.span
        c.metadata.chunkType ∧
      ((∀ pos, c.span.covers pos →
          ∀ t ∈ ((parser language document.content).outline language document.content).top, t.1.span.covers pos →
            document.content.beginsChar pos) →
        ((parser language document.content).outline language document.content).LabelledBy document.content.beginsChar
          c.span c.metadata.chunkType) := by
  obtain ⟨chunks, hchunks, hcomplete, hlabel⟩ := exists_units parser document strategy hloaded hformed
  refine ⟨chunks, hchunks, fun c hc => ?_⟩
  obtain ⟨i, j, hij, -, hspan, -⟩ := Text.exists_offset_of_slice? (hcomplete.content c hc)
  have hle : c.span.start ≤ c.span.stop := by
    rw [hspan]
    exact Text.offset_le_offset _ hij
  have hbytes := Outline.labelledBy_label (pairwise_top hformed language) hle
  rw [← hlabel c hc] at hbytes
  exact ⟨hbytes, fun hcounts => Outline.labelledBy_of_counts hcounts hbytes⟩

/-- An import and a function with a name of one character. -/
def importedText (name : Char) : Text :=
  ['u', 's', 'e', ' ', 'a', 'b', 'c', 'd', ';', '\n', 'f', 'n', ' ', name, '(', ')', '{', '}', '\n']

/-- Its tree if the function ends at a position. -/
def importedTree (stop : Nat) : SyntaxTree :=
  ⟨.mk "source_file" true ⟨0, stop + 1⟩ {}
    [.mk "use_declaration" true ⟨0, 9⟩ {} [], .mk "function_item" true ⟨10, stop⟩ {} []], false⟩

theorem symbols_importedTree : (importedTree 18).symbols .rust (importedText 'e') =
      [⟨none, .importing, 1, 1, ⟨0, 9⟩, 0, none⟩, ⟨none, .function, 2, 2, ⟨10, 18⟩, 0, none⟩] ∧
    (importedTree 19).symbols .rust (importedText 'é') =
      [⟨none, .importing, 1, 1, ⟨0, 9⟩, 0, none⟩, ⟨none, .function, 2, 2, ⟨10, 19⟩, 0, none⟩] :=
  ⟨(symbols_eq_collect (by decide +kernel)).trans (by decide +kernel),
    (symbols_eq_collect (by decide +kernel)).trans (by decide +kernel)⟩

/-- With a name of one byte all characters of the text count. -/
theorem chunks_labelled_by_bytes_import :
    (importedTree 18).WellFormed (importedText 'e') Language.rust.attachmentKinds ∧
      ∃ chunks, (code (fun _ _ => importedTree 18) (Grammars.ofLanguages [.rust]) .rust).chunk
          ⟨importedText 'e', { filePath := "a.rs" }⟩ {} = .ok chunks ∧
        ∀ c ∈ chunks, ((importedTree 18).outline .rust (importedText 'e')).LabelledBy (importedText 'e').beginsChar
          c.span c.metadata.chunkType := by
  have hformed : (importedTree 18).WellFormed (importedText 'e') Language.rust.attachmentKinds := by decide
  obtain ⟨chunks, hchunks, hlabels⟩ := chunks_labelled_by_bytes (fun _ _ => importedTree 18)
    (Grammars.ofLanguages [.rust]) .rust ⟨importedText 'e', { filePath := "a.rs" }⟩ {} (by decide) hformed
  refine ⟨hformed, chunks, hchunks, fun c hc => (hlabels c hc).2 fun pos _ t ht hpos => ?_⟩
  have htop : ∀ t ∈ ((importedTree 18).outline .rust (importedText 'e')).top, t.1.span.stop ≤ 18 := by
    rw [outline, symbols_importedTree.1]
    decide +kernel
  have hbegins : ∀ pos < 18, (importedText 'e').beginsChar pos := by decide
  have hstop := htop t ht
  simp only [Span.covers, Bool.and_eq_true, decide_eq_true_eq] at hpos
  exact hbegins pos (by omega)

/-- With a name of two bytes the function has as many bytes as the import, but fewer characters; yet it labels the
chunk of both. -/
theorem label_counts_bytes :
    (importedTree 19).WellFormed (importedText 'é') Language.rust.attachmentKinds ∧
      ∃ chunks, (code (fun _ _ => importedTree 19) (Grammars.ofLanguages [.rust]) .rust).chunk
          ⟨importedText 'é', { filePath := "a.rs" }⟩ {} = .ok chunks ∧
        ∃ c ∈ chunks, c.span = ⟨0, 20⟩ ∧ c.metadata.chunkType = .of .function ∧
          ((importedTree 19).outline .rust (importedText 'é')).LabelledBy (importedText 'é').beginsChar c.span
            (.of .importing) ∧
          ¬ ((importedTree 19).outline .rust (importedText 'é')).LabelledBy (importedText 'é').beginsChar c.span
            c.metadata.chunkType := by
  have hformed : (importedTree 19).WellFormed (importedText 'é') Language.rust.attachmentKinds := by decide
  have heval : ((((importedTree 19).outline .rust (importedText 'é')).plan {}).table (importedText 'é').byteLen).windows
      (importedText 'é') (Budget.ofSizes 1500 150) = some [⟨⟨0, 20⟩, false⟩] := by
    rw [outline, symbols_importedTree.2]
    decide +kernel
  have hloaded : (Grammars.ofLanguages [.rust]).isLoaded .rust := by decide
  obtain ⟨windows, chunks, hwindows, hchunks, hmap⟩ := exists_code_chunks (fun _ _ => importedTree 19)
    ⟨importedText 'é', { filePath := "a.rs" }⟩ {} hloaded hformed (by decide)
  obtain rfl := Option.some.inj (hwindows.symm.trans heval)
  obtain ⟨c, hc, hspan⟩ : ∃ c ∈ chunks, c.span = ⟨0, 20⟩ := by
    rw [← List.mem_map, hmap]
    exact List.mem_cons_self
  have hlabel : c.metadata.chunkType = .of .function := by
    have hsplit : splitUnits (fun _ _ => importedTree 19) (Grammars.ofLanguages [.rust]) .rust
        ⟨importedText 'é', { filePath := "a.rs" }⟩ {} = .ok chunks := hchunks
    have htype := congrArg Label.type (label_of_splitUnits hloaded hsplit hc)
    rw [hspan, outline, symbols_importedTree.2] at htype
    exact htype.trans (by decide +kernel)
  refine ⟨hformed, chunks, hchunks, c, hc, hspan, hlabel, ?_⟩
  rw [hlabel, hspan, outline, symbols_importedTree.2]
  exact ⟨by decide +kernel, by decide +kernel⟩

end Chunker
end Chunkwise
