import Chunkwise.Proofs.Chunker.Complete
import Chunkwise.Proofs.Chunker.Kept
import Chunkwise.Proofs.Window.Size

/-!
# How large chunks get

A plan that keeps nothing whole makes no chunk oversized (`fitting_of_loose`). Two of the chunkers have such
plans: that of separators for text that is not marked up, and that of units with both flags for keeping definitions
whole off (`Outline.solid_plan`). Together with what makes a window oversized: `oversized_only_for_solid`.
-/

namespace Chunkwise

/-! ## Plans that keep nothing whole -/

theorem Chunker.solid_separatorPlan (text : Text) : (separatorPlan text false).solid = [] := rfl

namespace Outline

variable {o : Outline} {strategy : Strategy}

/-- With both flags off an outline keeps nothing whole. -/
theorem solid_plan (hmethods : strategy.preserveMethods = false) (hclasses : strategy.preserveClasses = false) :
    (o.plan strategy).solid = [] := by
  refine List.eq_nil_iff_forall_not_mem.2 fun span h => ?_
  obtain ⟨unit, -, hkeeps, -⟩ := mem_solid_plan.1 h
  rw [Bool.eq_false_iff] at hmethods hclasses
  cases hkeeps with
  | unit hgoverned =>
    rcases hgoverned with ⟨-, hflag⟩ | ⟨-, -, hflag⟩
    · exact hclasses hflag
    · exact hmethods hflag
  | member _ hflag => exact hmethods hflag

end Outline

/-! ## Chunks that fit -/

namespace Chunker

variable {document : Document} {chunks : List Chunk} {size overlap : Nat}

/-- Chunks that are not oversized, and have no more characters than asked for. -/
def Fitting (size : Nat) (chunks : List Chunk) : Prop :=
  ∀ c ∈ chunks, ¬ c.metadata.oversized ∧ c.content.length ≤ max size 1

theorem fitting_nil (size : Nat) : Fitting size [] := fun c hc => by cases hc

/-- Cutting by a plan that keeps nothing whole makes chunks that fit. -/
theorem fitting_of_loose {plan : CutPlan} (h : plan.Built document.content) (hloose : plan.solid = [])
    {language chunker : String} {label : Span → Label}
    (hchunks : cutWith (plan.table document.content.byteLen) document size overlap language chunker label =
      .ok chunks) : Fitting size chunks := by
  obtain ⟨windows, hwindows, hmarked, hheld⟩ := h.fits.exists_sized_windows (Budget.ofSizes size overlap)
  obtain ⟨windows', chunks', hwindows', hchunks', hmap, hcontent⟩ :=
    exists_cutWith h.fits size overlap language chunker label
  have hw : windows' = windows := Option.some.inj (hwindows'.symm.trans hwindows)
  have hc : chunks' = chunks := Except.ok.inj (hchunks'.symm.trans hchunks)
  subst hw hc
  intro c hc
  have hmem : c.window ∈ windows' := by
    rw [← hmap]
    exact List.mem_map_of_mem hc
  -- An oversized window would end with a span to keep whole.
  have hnot : ¬ c.window.oversized := by
    intro hover
    obtain ⟨s, hs, -⟩ := hheld c.window hmem hover
    have hnone : (plan.table document.content.byteLen).solid = [] := CutPlan.mergedSolid_of_solid_eq_nil hloose
    rw [hnone] at hs
    cases hs
  obtain ⟨slice, hslice, hover⟩ := hmarked c.window hmem
  have hsame : slice = c.content := Option.some.inj (hslice.symm.trans (hcontent c hc))
  rw [hsame] at hover
  exact ⟨hnot, Nat.le_of_not_lt (mt hover.2 hnot)⟩

theorem splitPlain_fitting (hmarkup : isMarkup document.extension? document.content = false)
    (hchunks : splitPlain document size overlap = .ok chunks) : Fitting size chunks := by
  unfold splitPlain at hchunks
  split at hchunks
  · cases hchunks
    exact fitting_nil _
  · simp only [hmarkup] at hchunks
    exact fitting_of_loose (built_separatorPlan _ _) (solid_separatorPlan _) hchunks

theorem splitOutline_fitting {language : Language} {outline : Outline} {strategy : Strategy}
    (htext : outline.text = document.content) (hlines : outline.lines = LineTable.ofText outline.text)
    (hmethods : strategy.preserveMethods = false) (hclasses : strategy.preserveClasses = false)
    (hchunks : splitOutline language outline document strategy = .ok chunks) :
    Fitting strategy.maxChunkSize chunks := by
  have hbuilt := Outline.built_plan hlines strategy
  rw [htext] at hbuilt
  rw [splitOutline] at hchunks
  cases hplan : outline.plan? strategy with
  | none =>
    rw [hplan] at hchunks
    cases hchunks
  | some plan =>
    have hyields := Outline.yields_plan hlines strategy
    rw [hplan] at hyields
    rw [hplan, hyields.eq_of_some] at hchunks
    exact fitting_of_loose hbuilt (Outline.solid_plan hmethods hclasses) hchunks

/-- With both flags off program text has no oversized chunk, whatever its tree. -/
theorem splitUnits_fitting {parser : Parser} {grammars : Grammars} {language : Language} {strategy : Strategy}
    (hloaded : grammars.isLoaded language) (hmethods : strategy.preserveMethods = false)
    (hclasses : strategy.preserveClasses = false)
    (hchunks : splitUnits parser grammars language document strategy = .ok chunks) :
    Fitting strategy.maxChunkSize chunks := by
  unfold splitUnits at hchunks
  split at hchunks
  · cases hchunks
    exact fitting_nil _
  · simp only [Grammars.parse, if_pos hloaded] at hchunks
    exact splitOutline_fitting rfl rfl hmethods hclasses hchunks

/-- **Only a span to keep whole makes a window oversized**, and the chunkers that keep nothing whole make no oversized
chunk. -/
theorem oversized_only_for_solid :
    (∀ (text : Text) (plan : CutPlan), plan.Built text → ∀ budget : Budget,
      ∃ windows, (plan.table text.byteLen).windows text budget = some windows ∧
        text.CoveredBy (windows.map (·.span)) ∧ (∀ w ∈ windows, w.Marked text budget) ∧
        (∀ w ∈ windows, w.oversized → ∃ s ∈ plan.mergedSolid, w.HeldBy text budget s) ∧
        ((∀ s ∈ plan.mergedSolid, text.charsIn s ≤ budget.maxChars) → ∀ w ∈ windows, ¬ w.oversized)) ∧
      (∀ (document : Document) (size overlap : Nat), isMarkup document.extension? document.content = false →
        ∃ chunks, splitPlain document size overlap = .ok chunks ∧ Complete document.content chunks ∧
          Fitting size chunks) ∧
      ∀ (parser : Parser) (grammars : Grammars) (language : Language) (document : Document) (strategy : Strategy),
        grammars.isLoaded language → strategy.preserveMethods = false → strategy.preserveClasses = false →
          (∀ chunks, (code parser grammars language).chunk document strategy = .ok chunks →
            Fitting strategy.maxChunkSize chunks) ∧
          ((parser language document.content).WellFormed document.content language.attachmentKinds →
            ∃ chunks, (code parser grammars language).chunk document strategy = .ok chunks ∧
              Complete document.content chunks) := by
  refine ⟨?_, ?_, ?_⟩
  · intro text plan hbuilt budget
    obtain ⟨windows, hwindows, hmarked, hheld⟩ := hbuilt.fits.exists_sized_windows budget
    have hcover : text.CoveredBy (windows.map (·.span)) := by
      obtain ⟨windows', hwindows', hcover⟩ := hbuilt.fits.exists_windows budget
      rwa [Option.some.inj (hwindows.symm.trans hwindows')]
    refine ⟨windows, hwindows, hcover, hmarked, hheld, fun hfit w hw hover => ?_⟩
    obtain ⟨s, hs, hlong⟩ := hheld w hw hover
    exact Nat.not_lt.2 (hfit s hs) hlong.long
  · intro document size overlap hmarkup
    obtain ⟨chunks, hchunks, hcomplete⟩ := splitPlain_complete document size overlap
    exact ⟨chunks, hchunks, hcomplete, splitPlain_fitting hmarkup hchunks⟩
  · intro parser grammars language document strategy hloaded hmethods hclasses
    refine ⟨fun chunks hchunks => splitUnits_fitting hloaded hmethods hclasses hchunks, fun hformed => ?_⟩
    exact splitUnits_complete grammars strategy hformed

/-- A text with a block that is to be kept whole and is longer than the budget. -/
def blockText : Text := ['a', '\n', 'b', 'b', 'b', '\n', 'c', '\n']

def blockPlan : CutPlan := CutPlan.keepWhole {} ⟨2, 6⟩

def blockBudget : Budget := ⟨3, 1, by decide⟩

def looseStrategy : Strategy := { preserveMethods := false, preserveClasses := false }

/-- One window of the three is oversized, for the block; the chunks of the same text by separators all fit, and so do
those of a function that need not be kept whole. -/
theorem oversized_only_for_block :
    (blockPlan.Built blockText ∧ (blockPlan.table blockText.byteLen).windows blockText blockBudget =
        some [⟨⟨0, 2⟩, false⟩, ⟨⟨1, 6⟩, true⟩, ⟨⟨5, 8⟩, false⟩] ∧
      ∃ s ∈ blockPlan.mergedSolid, Window.HeldBy ⟨⟨1, 6⟩, true⟩ blockText blockBudget s) ∧
      (∃ chunks, splitPlain ⟨blockText, { filePath := "a" }⟩ 3 1 = .ok chunks ∧ Fitting 3 chunks) ∧
      ∃ chunks, (code (fun _ _ => functionTree) (Grammars.ofLanguages [.rust]) .rust).chunk
        ⟨functionText, { filePath := "a.rs" }⟩ looseStrategy = .ok chunks ∧
          Fitting looseStrategy.maxChunkSize chunks := by
  obtain ⟨hwindow, hplain, hcode⟩ := oversized_only_for_solid
  have hbuilt : blockPlan.Built blockText := .keepWhole .empty (by decide) (by decide)
  have heval : (blockPlan.table blockText.byteLen).windows blockText blockBudget =
      some [⟨⟨0, 2⟩, false⟩, ⟨⟨1, 6⟩, true⟩, ⟨⟨5, 8⟩, false⟩] := by decide +kernel
  refine ⟨⟨hbuilt, heval, ?_⟩, ?_, ?_⟩
  · obtain ⟨windows, hwindows, -, -, hheld, -⟩ := hwindow blockText blockPlan hbuilt blockBudget
    have hlist := Option.some.inj (hwindows.symm.trans heval)
    subst hlist
    exact hheld ⟨⟨1, 6⟩, true⟩ (by simp) rfl
  · obtain ⟨chunks, hchunks, -, hfitting⟩ := hplain ⟨blockText, { filePath := "a" }⟩ 3 1 (by decide +kernel)
    exact ⟨chunks, hchunks, hfitting⟩
  · obtain ⟨hfitting, hexists⟩ := hcode (fun _ _ => functionTree) (Grammars.ofLanguages [.rust]) .rust
      ⟨functionText, { filePath := "a.rs" }⟩ looseStrategy (by decide) rfl rfl
    obtain ⟨chunks, hchunks, -⟩ := hexists functionTree_wellFormed
    exact ⟨chunks, hchunks, hfitting chunks hchunks⟩

end Chunker
end Chunkwise
