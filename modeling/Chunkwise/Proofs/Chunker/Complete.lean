import Chunkwise.Proofs.Chunk.Assemble
import Chunkwise.Proofs.Chunker.Checked
import Chunkwise.Proofs.Chunker.Plans

/-!
# No chunker loses text

Every chunker cuts by the table of a plan that is made of positions of its document, so that its windows cover it
(`exists_complete_of_built`). A document of program text is only refused if its tree is not well-formed, and one
without anything but blanks has no chunks (`complete_nil`). Together: each of the three chunkers succeeds, and
everything but blanks is in its chunks (`chunks_complete`).
-/

namespace Chunkwise
namespace Chunker

variable {text : Text} {chunks : List Chunk} {document : Document} {size overlap : Nat}

/-- What the chunks of a text must be for nothing of it to be lost. -/
structure Complete (text : Text) (chunks : List Chunk) : Prop where
  /-- The content of a chunk is the slice at its bytes. -/
  content : ∀ c ∈ chunks, text.slice? c.span = some c.content
  covered : text.CoveredBy (chunks.map Chunk.span)
  /-- Only blank texts have no chunks. -/
  nonempty : ¬ text.isBlank → chunks ≠ []

theorem complete_nil (h : text.isBlank) : Complete text [] where
  content := fun c hc => by cases hc
  covered := Text.coveredBy_nil h
  nonempty := fun hblank => absurd h hblank

/-- Cutting by a plan made of positions of the document loses nothing. -/
theorem exists_complete_of_built {plan : CutPlan} (h : plan.Built document.content) (size overlap : Nat)
    (language chunker : String) (label : Span → Label) :
    ∃ chunks, cutWith (plan.table document.content.byteLen) document size overlap language chunker label = .ok chunks ∧
      Complete document.content chunks := by
  obtain ⟨windows, chunks, hwindows, hchunks, hmap, hcontent⟩ :=
    exists_cutWith h.fits size overlap language chunker label
  obtain ⟨windows', hwindows', hcover⟩ := h.fits.exists_windows (Budget.ofSizes size overlap)
  have heq : windows' = windows := Option.some.inj (hwindows'.symm.trans hwindows)
  rw [heq, ← Chunk.map_span_of_map_window hmap] at hcover
  refine ⟨chunks, hchunks, hcontent, hcover, fun hblank hnil => ?_⟩
  exact hcover.ne_nil hblank (by rw [hnil]; rfl)

theorem splitPlain_complete (document : Document) (size overlap : Nat) :
    ∃ chunks, splitPlain document size overlap = .ok chunks ∧ Complete document.content chunks := by
  unfold splitPlain
  split
  · rename_i hblank
    exact ⟨[], rfl, complete_nil hblank⟩
  · exact exists_complete_of_built (built_separatorPlan _ _) size overlap _ _ _

theorem splitSections_complete (parser : Parser) (grammars : Grammars) (document : Document) (strategy : Strategy) :
    ∃ chunks, splitSections parser grammars document strategy = .ok chunks ∧ Complete document.content chunks := by
  unfold splitSections
  split
  · rename_i hblank
    exact ⟨[], rfl, complete_nil hblank⟩
  · split
    · exact splitPlain_complete document _ _
    · exact exists_complete_of_built (built_sectionPlan _ _) _ _ _ _ _

/-- Program text is never refused for a sound outline. -/
theorem splitOutline_complete {language : Language} {outline : Outline} (hsound : outline.Sound)
    (htext : outline.text = document.content) (strategy : Strategy) :
    ∃ chunks, splitOutline language outline document strategy = .ok chunks ∧ Complete document.content chunks := by
  have hbuilt := Outline.built_plan hsound.lines strategy
  rw [htext] at hbuilt
  rw [splitOutline, hsound.plan?_eq]
  exact exists_complete_of_built hbuilt _ _ _ _ _

theorem splitUnits_complete {parser : Parser} {language : Language} (grammars : Grammars) (strategy : Strategy)
    (h : (parser language document.content).WellFormed document.content language.attachmentKinds) :
    ∃ chunks, splitUnits parser grammars language document strategy = .ok chunks ∧
      Complete document.content chunks := by
  unfold splitUnits
  split
  · rename_i hblank
    exact ⟨[], rfl, complete_nil hblank⟩
  · unfold Grammars.parse
    by_cases hloaded : grammars.isLoaded language
    · rw [if_pos hloaded]
      exact splitOutline_complete h.sound rfl strategy
    · rw [if_neg hloaded]
      exact splitPlain_complete document _ _

/-- **No chunker loses text**, for any sizes and flags and any well-formed tree. -/
theorem chunks_complete (parser : Parser) (grammars : Grammars) (document : Document) (strategy : Strategy)
    (size overlap : Nat) :
    (∃ chunks, splitPlain document size overlap = .ok chunks ∧ Complete document.content chunks) ∧
      (∃ chunks, (markdown parser grammars).chunk document strategy = .ok chunks ∧
        Complete document.content chunks) ∧
      ∀ language, (parser language document.content).WellFormed document.content language.attachmentKinds →
        ∃ chunks, (code parser grammars language).chunk document strategy = .ok chunks ∧
          Complete document.content chunks := by
  refine ⟨splitPlain_complete document size overlap, splitSections_complete parser grammars document strategy, ?_⟩
  intro language hformed
  exact splitUnits_complete grammars strategy hformed

/-- A text with one function. -/
def functionText : Text := ['f', 'n', ' ', 'a', '(', ')', ' ', '{', '}', '\n']

def functionTree : SyntaxTree :=
  ⟨.mk "source_file" true ⟨0, 10⟩ {} [.mk "function_item" true ⟨0, 9⟩ {} []], false⟩

theorem functionTree_wellFormed : functionTree.WellFormed functionText Language.rust.attachmentKinds := by
  have hnodes : ∀ node ∈ functionTree.root.preorder,
      node = functionTree.root ∨ node = .mk "function_item" true ⟨0, 9⟩ {} [] := by
    simp [functionTree, Node.preorder, Node.preorderAll]
  refine ⟨fun node hnode => ?_, fun node hnode _ => ?_⟩
  · rcases hnodes node hnode with rfl | rfl
    · exact ⟨by decide, by decide, by decide, by decide, by decide, by decide, trivial⟩
    · exact ⟨by decide, by decide, by decide, trivial⟩
  · rcases hnodes node hnode with rfl | rfl <;> decide

/-- A strategy by which functions may be cut, for four characters at a time. -/
def shortStrategy : Strategy := { maxChunkSize := 4, chunkOverlap := 1, preserveMethods := false }

/-- By separators as by its outline the function is cut into three chunks, two of which share a bracket. -/
theorem chunks_complete_function :
    functionTree.WellFormed functionText Language.rust.attachmentKinds ∧
      (∃ chunks, splitPlain ⟨functionText, { filePath := "a.rs" }⟩ 4 1 = .ok chunks ∧
        chunks.map Chunk.span = [⟨0, 3⟩, ⟨3, 7⟩, ⟨6, 10⟩] ∧ Complete functionText chunks) ∧
      ∃ chunks, (code (fun _ _ => functionTree) (Grammars.ofLanguages [.rust]) .rust).chunk
        ⟨functionText, { filePath := "a.rs" }⟩ shortStrategy = .ok chunks ∧
          chunks.map Chunk.span = [⟨0, 4⟩, ⟨3, 7⟩, ⟨6, 10⟩] ∧ Complete functionText chunks := by
  obtain ⟨⟨plainChunks, hplain, hwhole⟩, -, hcode⟩ := chunks_complete (fun _ _ => functionTree)
    (Grammars.ofLanguages [.rust]) ⟨functionText, { filePath := "a.rs" }⟩ shortStrategy 4 1
  obtain ⟨codeChunks, hunits, hwhole'⟩ := hcode .rust functionTree_wellFormed
  have hspans : (splitPlain ⟨functionText, { filePath := "a.rs" }⟩ 4 1).toOption.map (·.map Chunk.span) =
      some [⟨0, 3⟩, ⟨3, 7⟩, ⟨6, 10⟩] := by decide +kernel
  have hspans' : ((code (fun _ _ => functionTree) (Grammars.ofLanguages [.rust]) .rust).chunk
      ⟨functionText, { filePath := "a.rs" }⟩ shortStrategy).toOption.map (·.map Chunk.span) =
        some [⟨0, 4⟩, ⟨3, 7⟩, ⟨6, 10⟩] := by decide +kernel
  rw [hplain] at hspans
  rw [hunits] at hspans'
  exact ⟨functionTree_wellFormed, ⟨plainChunks, hplain, Option.some.inj hspans, hwhole⟩, codeChunks, hunits,
    Option.some.inj hspans', hwhole'⟩

end Chunker
end Chunkwise
