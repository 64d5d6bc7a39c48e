import Chunkwise.Proofs.Chunker.Complete
import Chunkwise.Proofs.Chunker.Kept
import Chunkwise.Proofs.Text.Lines
import Chunkwise.Proofs.Window.Whole

/-!
# Units stay whole

The units of a text follow each other from its start to its end (`tile_units`), each from the start of a line on.
Nothing that is kept whole reaches out of its unit, so that the start of a unit is never inside a merged span
(`not_inside_of_mem_units`), stays at the coarsest level of the table, and the ends of a unit are neighbours there
(`neighbours_of_mem_units`). A unit is therefore not cut if it fits the budget or a flag governs it
(`uncutBy_of_mem_units`), and it is whole in a chunk unless it is blank (`units_stay_whole`).
-/

namespace Chunkwise

/-! ## Spans that tile a stretch -/

namespace Span

/-- Whether some spans, none of them empty, follow each other without gaps from one position to another. -/
def Tile (start stop : Nat) : List Span → Prop
  | [] => start = stop
  | s :: rest => s.start = start ∧ s.start < s.stop ∧ Tile s.stop stop rest

variable {start stop : Nat} {spans : List Span} {s : Span}

theorem Tile.le (h : Tile start stop spans) : start ≤ stop := by
  induction spans generalizing start with
  | nil => exact Nat.le_of_eq h
  | cons s spans ih =>
    obtain ⟨rfl, hlt, hrest⟩ := h
    exact Nat.le_trans (Nat.le_of_lt hlt) (ih hrest)

theorem Tile.bounds (h : Tile start stop spans) (hs : s ∈ spans) :
    start ≤ s.start ∧ s.start < s.stop ∧ s.stop ≤ stop := by
  induction spans generalizing start with
  | nil => cases hs
  | cons t spans ih =>
    obtain ⟨rfl, hlt, hrest⟩ := h
    rcases List.mem_cons.1 hs with rfl | hs
    · exact ⟨Nat.le_refl _, hlt, hrest.le⟩
    · obtain ⟨hle, hne, hstop⟩ := ih hrest hs
      exact ⟨by omega, hne, hstop⟩

theorem Tile.apart (h : Tile start stop spans) : CutPlan.Apart spans := by
  induction spans generalizing start with
  | nil => exact List.Pairwise.nil
  | cons t spans ih =>
    obtain ⟨-, -, hrest⟩ := h
    exact List.pairwise_cons.2 ⟨fun s hs => (hrest.bounds hs).1, ih hrest⟩

/-- No end of a tile is inside another. -/
theorem Tile.not_inside (h : Tile start stop spans) (hs : s ∈ spans) {pos : Nat} (hpos : pos = s.start ∨ pos = s.stop) :
    ¬ CutPlan.inside spans pos :=
  h.apart.not_inside_edge (fun _ ha => (h.bounds ha).2.1) hs hpos

end Span

namespace Outline

variable {o : Outline} {strategy : Strategy} {unit span : Span} {start stop pos : Nat} {positions : List Nat}

theorem tile_spansBetween (hasc : (start :: positions).Pairwise (· < ·)) (hstop : ∀ p ∈ start :: positions, p < stop) :
    Span.Tile start stop (spansBetween start stop positions) := by
  induction positions generalizing start with
  | nil => exact ⟨rfl, hstop start List.mem_cons_self, rfl⟩
  | cons p positions ih =>
    obtain ⟨hlt, hasc⟩ := List.pairwise_cons.1 hasc
    exact ⟨rfl, hlt p List.mem_cons_self, ih hasc fun q hq => hstop q (List.mem_cons_of_mem _ hq)⟩

theorem exists_mem_spansBetween (start stop : Nat) (h : pos ∈ positions) :
    ∃ s ∈ spansBetween start stop positions, s.start = pos := by
  induction positions generalizing start with
  | nil => cases h
  | cons p positions ih =>
    rcases List.mem_cons.1 h with rfl | h
    · cases positions <;> exact ⟨_, List.mem_cons_of_mem _ List.mem_cons_self, rfl⟩
    · obtain ⟨s, hs, hstart⟩ := ih p h
      exact ⟨s, List.mem_cons_of_mem _ hs, hstart⟩

/-! ## Units -/

theorem pairwise_unitStarts (ho : o.lines = LineTable.ofText o.text) (strategy : Strategy) :
    (o.unitStarts strategy).Pairwise (· < ·) := by
  rw [unitStarts, List.pairwise_filter, List.pairwise_map]
  have hlines : (o.unitLines strategy).Pairwise (· < ·) := Ascending.pairwise_ofList _
  refine hlines.imp fun {a b} hab ha hb => ?_
  simp only [Bool.and_eq_true, decide_eq_true_eq, ho] at ha hb ⊢
  refine LineTable.lineStart_lt_lineStart ?_ hab hb.2
  -- There is no line 0: what would be its start is the end of the text.
  rcases Nat.eq_zero_or_pos a with rfl | hpos
  · exact absurd ha.2 (Nat.lt_irrefl _)
  · exact hpos

/-- **The units of a text tile it.** -/
theorem tile_units (ho : o.lines = LineTable.ofText o.text) (hne : 0 < o.text.byteLen) (strategy : Strategy) :
    Span.Tile 0 o.text.byteLen (o.units strategy) := by
  refine tile_spansBetween (List.pairwise_cons.2 ⟨fun _ hp => (unitStarts_lt hp).1, pairwise_unitStarts ho strategy⟩)
    fun p hp => ?_
  rcases List.mem_cons.1 hp with rfl | hp
  · exact hne
  · exact (unitStarts_lt hp).2

theorem isLineStart_of_mem_unitStarts (ho : o.lines = LineTable.ofText o.text) (h : pos ∈ o.unitStarts strategy) :
    o.text.IsLineStart pos := by
  have hlt := (unitStarts_lt h).2
  obtain ⟨line, -, rfl⟩ := List.mem_map.1 (List.mem_filter.1 h).1
  rw [ho] at hlt ⊢
  exact LineTable.isLineStart_lineStart hlt

theorem isLineStart_of_mem_units (ho : o.lines = LineTable.ofText o.text) (h : unit ∈ o.units strategy) :
    o.text.IsLineStart unit.start := by
  rcases (ends_of_mem_units h).1 with hzero | hstart
  · exact Or.inl hzero
  · exact isLineStart_of_mem_unitStarts ho hstart

/-- What is kept whole lies within a unit. -/
theorem exists_unit_of_mem_solid (h : span ∈ (o.plan strategy).solid) :
    ∃ unit ∈ o.units strategy, unit.start ≤ span.start ∧ span.stop ≤ unit.stop := by
  obtain ⟨unit, hunit, hkeeps, -⟩ := mem_solid_plan.1 h
  exact ⟨unit, hunit, hkeeps.within⟩

/-- The ends of units are not inside what is kept whole. -/
theorem not_inside_of_mem_units (ho : o.lines = LineTable.ofText o.text) (hne : 0 < o.text.byteLen)
    (hunit : unit ∈ o.units strategy) (hpos : pos = unit.start ∨ pos = unit.stop) :
    ¬ CutPlan.inside (o.plan strategy).mergedSolid pos := by
  intro hin
  obtain ⟨span, hspan, hstart, hstop⟩ := CutPlan.inside_iff.1 ((CutPlan.inside_mergedSolid _ _).1 hin)
  obtain ⟨other, hother, hle, hge⟩ := exists_unit_of_mem_solid hspan
  refine (tile_units ho hne strategy).not_inside hunit hpos (CutPlan.inside_iff.2 ⟨other, hother, ?_, ?_⟩) <;> omega

/-- The coarsest level of the table of an outline holds the starts of its units and the end of the text. -/
theorem exists_unit_level (ho : o.lines = LineTable.ofText o.text) (hne : 0 < o.text.byteLen) (strategy : Strategy) :
    ∃ level, ((o.plan strategy).table o.text.byteLen).levels[0]? = some level ∧
      ∀ pos, pos ∈ level ↔ pos ∈ o.unitStarts strategy ∨ pos = o.text.byteLen := by
  obtain ⟨level, hlevel, hmem⟩ := CutPlan.exists_coarsest_level (o.plan strategy) o.text.byteLen
  refine ⟨level, hlevel, fun pos => ?_⟩
  rw [hmem, mem_marks_plan, and_iff_left_iff_imp, CutPlan.allowed_iff]
  rintro (hstart | rfl)
  · obtain ⟨hpos, hlt⟩ := unitStarts_lt hstart
    obtain ⟨unit, hunit, rfl⟩ := exists_mem_spansBetween 0 o.text.byteLen hstart
    exact ⟨hpos, Nat.le_of_lt hlt, not_inside_of_mem_units ho hne hunit (Or.inl rfl)⟩
  · exact CutPlan.allowed_iff.1 (CutPlan.allowed_byteLen (built_plan ho strategy).sliceOf_solid hne)

/-- The ends of a unit are neighbours at the coarsest level. -/
theorem neighbours_of_mem_units (ho : o.lines = LineTable.ofText o.text) (hne : 0 < o.text.byteLen)
    (hunit : unit ∈ o.units strategy) :
    ((o.plan strategy).table o.text.byteLen).Neighbours 0 unit.start unit.stop := by
  obtain ⟨level, hlevel, hmem⟩ := exists_unit_level ho hne strategy
  have htile := tile_units ho hne strategy
  obtain ⟨-, hlt, hle⟩ := htile.bounds hunit
  obtain ⟨hstart, hstop⟩ := ends_of_mem_units hunit
  refine ⟨?_, ?_, hlt, ?_⟩
  · exact hstart.imp_right fun h => ⟨0, Nat.le_refl _, level, hlevel, (hmem _).2 (Or.inl h)⟩
  · exact Or.inr ⟨0, Nat.le_refl _, level, hlevel, (hmem _).2 hstop.symm⟩
  · intro pos hpos hbehind
    obtain ⟨n, hn, level', hlevel', hin⟩ := hpos.exists_level hbehind
    obtain rfl := Nat.le_zero.1 hn
    obtain rfl := Option.some.inj (hlevel.symm.trans hlevel')
    rcases (hmem pos).1 hin with hpos | rfl
    · -- Another unit begins there, and not inside this one.
      obtain ⟨other, hother, rfl⟩ := exists_mem_spansBetween 0 o.text.byteLen hpos
      refine Nat.le_of_not_lt fun hbefore => ?_
      exact htile.not_inside hother (Or.inl rfl) (CutPlan.inside_iff.2 ⟨unit, hunit, hbehind, hbefore⟩)
    · exact hle

/-- No cut falls into a unit that fits the budget, or that a flag governs. -/
theorem uncutBy_of_mem_units (ho : o.lines = LineTable.ofText o.text) {budget : Budget} {spans : List Span}
    (hcuts : ((o.plan strategy).table o.text.byteLen).cuts o.text budget = some spans) (hunit : unit ∈ o.units strategy)
    (hkept : o.text.charsIn unit ≤ budget.maxChars ∨ o.Governed strategy unit) : unit.UncutBy spans := by
  have hbuilt := built_plan ho strategy
  rcases Nat.eq_zero_or_pos o.text.byteLen with hempty | hne
  · -- Nothing is inside a unit of the empty text.
    have := Text.le_byteLen_of_isBoundary (isBoundary_of_mem_units ho hunit).2
    intro s _ hin
    omega
  · rcases hkept with hfit | hgoverned
    · exact CutTable.uncutBy_of_neighbours hbuilt.fits hcuts (neighbours_of_mem_units ho hne hunit) hfit
    · have hlt := ((tile_units ho hne strategy).bounds hunit).2.1
      exact CutTable.uncutBy_of_mem_solid hbuilt.sliceOf_solid hcuts
        (mem_solid_plan.2 ⟨unit, hunit, .unit hgoverned, hlt⟩)

/-- What the units of an outline are to its text and its plan. -/
structure Divided (o : Outline) (strategy : Strategy) : Prop where
  tile : o.text ≠ [] → Span.Tile 0 o.text.byteLen (o.units strategy)
  lineStart : ∀ unit ∈ o.units strategy, o.text.IsLineStart unit.start
  /-- What is kept whole lies within a unit. -/
  contained : ∀ span ∈ (o.plan strategy).solid, ∃ unit ∈ o.units strategy,
    unit.start ≤ span.start ∧ span.stop ≤ unit.stop
  /-- The starts of units are at the coarsest level, the start of the text apart. -/
  coarsest : ∀ unit ∈ o.units strategy, 0 < unit.start →
    ∃ level, ((o.plan strategy).table o.text.byteLen).levels[0]? = some level ∧ unit.start ∈ level

theorem divided (ho : o.lines = LineTable.ofText o.text) (strategy : Strategy) : o.Divided strategy where
  tile := fun hne => tile_units ho (Text.byteLen_pos hne) strategy
  lineStart := fun _ hunit => isLineStart_of_mem_units ho hunit
  contained := fun _ hspan => exists_unit_of_mem_solid hspan
  coarsest := by
    intro unit hunit hpos
    have hstart := (ends_of_mem_units hunit).1.resolve_left (Nat.ne_of_gt hpos)
    have hlt := unitStarts_lt hstart
    obtain ⟨level, hlevel, hmem⟩ := exists_unit_level ho (by omega) strategy
    exact ⟨level, hlevel, (hmem _).2 (Or.inl hstart)⟩

end Outline

/-! ## Chunks -/

namespace Chunker

variable {parser : Parser} {grammars : Grammars} {language : Language} {document : Document}

/-- Program text of a well-formed tree is cut by its outline, unless it is blank. -/
theorem exists_code_chunks (parser : Parser) (document : Document) (strategy : Strategy)
    (hloaded : grammars.isLoaded language)
    (hformed : (parser language document.content).WellFormed document.content language.attachmentKinds)
    (hblank : ¬ document.content.isBlank) :
    ∃ windows chunks, ((((parser language document.content).outline language document.content).plan strategy).table
        document.content.byteLen).windows document.content
          (Budget.ofSizes strategy.maxChunkSize strategy.chunkOverlap) = some windows ∧
      (code parser grammars language).chunk document strategy = .ok chunks ∧
      chunks.map Chunk.span = windows.map (·.span) := by
  have hbuilt := Outline.built_plan (o := (parser language document.content).outline language document.content) rfl
    strategy
  obtain ⟨windows, chunks, hwindows, hchunks, hmap, -⟩ := exists_cutWith hbuilt.fits strategy.maxChunkSize
    strategy.chunkOverlap language.name (codeName language)
    ((parser language document.content).outline language document.content).label
  refine ⟨windows, chunks, hwindows, ?_, Chunk.map_span_of_map_window hmap⟩
  simp only [code, splitUnits, if_neg hblank, Grammars.parse, if_pos hloaded]
  have hplan := hformed.sound.plan?_eq strategy
  rw [SyntaxTree.outline] at hplan
  rw [splitOutline, hplan]
  exact hchunks

/-- Program text of a well-formed tree has chunks, and they cut and hold what the cuts of its outline do. -/
theorem exists_chunks_of_outline (strategy : Strategy) (hloaded : grammars.isLoaded language)
    (hformed : (parser language document.content).WellFormed document.content language.attachmentKinds) :
    ∃ chunks, (code parser grammars language).chunk document strategy = .ok chunks ∧ ∀ span : Span,
      (∀ spans, ((((parser language document.content).outline language document.content).plan strategy).table
          document.content.byteLen).cuts document.content
            (Budget.ofSizes strategy.maxChunkSize strategy.chunkOverlap) = some spans → span.UncutBy spans) →
        span.UncutBy (chunks.map Chunk.span) ∧
          (document.content.HasInk span → span.WholeIn (chunks.map Chunk.span)) := by
  by_cases hblank : document.content.isBlank
  · refine ⟨[], by simp only [code, splitUnits, if_pos hblank], fun span _ => ⟨fun s hs => (by cases hs), fun hink => ?_⟩⟩
    exact absurd hink (Text.not_hasInk_of_isBlank hblank)
  · obtain ⟨windows, chunks, hwindows, hchunks, hmap⟩ :=
      exists_code_chunks parser document strategy hloaded hformed hblank
    refine ⟨chunks, hchunks, fun span huncut => ?_⟩
    obtain ⟨spans, hcuts, rfl⟩ := CutTable.exists_cuts_of_windows hwindows
    rw [hmap]
    exact CutTable.uncut_and_whole hcuts (huncut spans hcuts)

/-- **Units stay whole**, if they fit the budget or a flag governs them. -/
theorem units_stay_whole (parser : Parser) (grammars : Grammars) (language : Language) (document : Document)
    (strategy : Strategy) (hloaded : grammars.isLoaded language)
    (hformed : (parser language document.content).WellFormed document.content language.attachmentKinds) :
    ((parser language document.content).outline language document.content).Divided strategy ∧
      ∃ chunks, (code parser grammars language).chunk document strategy = .ok chunks ∧
        ∀ unit ∈ ((parser language document.content).outline language document.content).units strategy,
          document.content.HasInk unit →
          (document.content.charsIn unit ≤ max strategy.maxChunkSize 1 ∨
            ((parser language document.content).outline language document.content).Governed strategy unit) →
          unit.WholeIn (chunks.map Chunk.span) := by
  obtain ⟨chunks, hchunks, hspares⟩ := exists_chunks_of_outline strategy hloaded hformed
  refine ⟨Outline.divided rfl strategy, chunks, hchunks, fun unit hunit hink hkept => ?_⟩
  exact (hspares unit fun spans hcuts => Outline.uncutBy_of_mem_units rfl hcuts hunit hkept).2 hink

/-- A function with a comment below it. -/
def notedText : Text := ['f', 'n', ' ', 'a', '(', ')', ' ', '{', '}', '\n', '/', '/', ' ', 'b', '\n']

def notedTree : SyntaxTree :=
  ⟨.mk "source_file" true ⟨0, 15⟩ {} [.mk "function_item" true ⟨0, 9⟩ {} [], .mk "line_comment" true ⟨10, 14⟩ {} []],
    false⟩

def narrowStrategy : Strategy := { maxChunkSize := 5 }

theorem symbols_notedTree : notedTree.symbols .rust notedText =
    [⟨none, .function, 1, 1, ⟨0, 9⟩, 0, none⟩, ⟨none, .comment, 2, 2, ⟨10, 14⟩, 0, none⟩] :=
  (SyntaxTree.symbols_eq_collect (by decide +kernel)).trans (by decide +kernel)

/-- The unit of the function is longer than a chunk and kept whole as functions are; that of the comment just fits. -/
theorem units_stay_whole_noted :
    (notedTree.WellFormed notedText Language.rust.attachmentKinds ∧
        (notedTree.outline .rust notedText).units narrowStrategy = [⟨0, 10⟩, ⟨10, 15⟩] ∧
        notedText.charsIn ⟨0, 10⟩ = 10 ∧ notedText.charsIn ⟨10, 15⟩ = narrowStrategy.maxChunkSize) ∧
      ∃ chunks, (code (fun _ _ => notedTree) (Grammars.ofLanguages [.rust]) .rust).chunk
          ⟨notedText, { filePath := "a.rs" }⟩ narrowStrategy = .ok chunks ∧
        Span.WholeIn ⟨0, 10⟩ (chunks.map Chunk.span) ∧ Span.WholeIn ⟨10, 15⟩ (chunks.map Chunk.span) := by
  have hformed : notedTree.WellFormed notedText Language.rust.attachmentKinds := by decide
  have hunits : (notedTree.outline .rust notedText).units narrowStrategy = [⟨0, 10⟩, ⟨10, 15⟩] := by
    rw [SyntaxTree.outline, symbols_notedTree]
    decide +kernel
  have hgoverned : (notedTree.outline .rust notedText).Governed narrowStrategy ⟨0, 10⟩ := by
    rw [← Outline.keepsWhole_iff, SyntaxTree.outline, symbols_notedTree]
    decide +kernel
  obtain ⟨-, chunks, hchunks, hwhole⟩ := units_stay_whole (fun _ _ => notedTree) (Grammars.ofLanguages [.rust]) .rust
    ⟨notedText, { filePath := "a.rs" }⟩ narrowStrategy (by decide) hformed
  refine ⟨⟨hformed, hunits, by decide, by decide⟩, chunks, hchunks, hwhole _ ?_ ?_ (Or.inr hgoverned),
    hwhole _ ?_ ?_ (Or.inl ?_)⟩
  · rw [hunits]
    exact List.mem_cons_self
  · exact ⟨notedText.take 10, by decide, by decide⟩
  · rw [hunits]
    exact List.mem_cons_of_mem _ List.mem_cons_self
  · exact ⟨notedText.drop 10, by decide, by decide⟩
  · decide

end Chunker
end Chunkwise
