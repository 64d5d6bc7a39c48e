import Chunkwise.Proofs.Chunk.Range
import Chunkwise.Proofs.Chunker.Dominant
import Chunkwise.Proofs.Symbol.Tally
import Chunkwise.Proofs.Tree.Depth

/-!
# Chunking in machine words

The chunkers once more, with the numbers that they make held to 64 bits: offsets, the lines behind a symbol and the depth
below it, and the sums that label a chunk. A step gives `none` where a number gets too large.

Offsets and lines are bounded by the bytes of the text, depths by the nodes of the tree. What outermost symbols share
with a span adds up to no more than its length (`Outline.total_votes_le`), what code blocks share with it to no more than
its length for each level of code blocks in code blocks. A vote doubles a weight, so half of what 64 bits hold has to be
enough for each of these (`SyntaxTree.HasRoom`). Then every chunker comes to the same in words
(`Chunker.splitPlainInWords?_eq`, `Chunker.splitSectionsInWords?_eq`, `Chunker.splitUnitsInWords?_eq`).
-/

namespace Chunkwise

variable {document : Document} {text : Text} {plan : CutPlan} {label : Span → Label}
variable {language : Language} {tree : SyntaxTree} {parser : Parser} {span : Span} {strategy : Strategy}

/-! ## Numbers -/

/-- Whether 64 bits hold some numbers. -/
def fitWords (numbers : List Nat) : Bool := numbers.all (· < UInt64.size)

/-- The numbers made of a symbol: its offsets, the lines behind its first and its last one, and the depth below it. -/
def Symbol.numbers (s : Symbol) : List Nat := [s.span.start, s.span.stop, s.lineStart + 1, s.lineEnd + 1, s.depth + 1]

/-- The offsets in a plan. -/
def CutPlan.numbers (plan : CutPlan) : List Nat := plan.marks.map (·.2) ++ plan.solid.flatMap fun s => [s.start, s.stop]

/-- The offsets of a window. -/
def Window.numbers (w : Window) : List Nat := [w.span.start, w.span.stop]

theorem fitWords_iff {numbers : List Nat} : fitWords numbers ↔ ∀ n ∈ numbers, n < UInt64.size := by
  simp [fitWords]

/-- The marks of a plan made of positions of a text are no further than its end. -/
theorem CutPlan.Built.numbers_le (h : plan.Built text) : ∀ n ∈ plan.numbers, n ≤ text.byteLen := by
  intro n hn
  rcases List.mem_append.1 hn with hn | hn
  · obtain ⟨mark, hmark, rfl⟩ := List.mem_map.1 hn
    exact Text.le_byteLen_of_isBoundary (h.isBoundary_mark mark hmark)
  · obtain ⟨s, hs, hend⟩ := List.mem_flatMap.1 hn
    have hslice := h.sliceOf_solid s hs
    simp only [List.mem_cons, List.not_mem_nil, or_false] at hend
    rcases hend with rfl | rfl
    · exact Text.le_byteLen_of_isBoundary hslice.start
    · exact Text.le_byteLen_of_isBoundary hslice.stop

/-! ## Labels -/

/-- The label of a vote that is counted in a table. -/
def Vote.label? (votes : List (SymbolKind × Nat)) : Option ChunkType := (tally? votes).bind elect?

theorem Vote.label?_eq {votes : List (SymbolKind × Nat)} (h : total votes < UInt64.size / 2) :
    label? votes = some (dominantKind votes) := by
  obtain ⟨table, htally, htable, hweights⟩ := exists_tally? (show total votes < UInt64.size by omega)
  have htotal : total table = total votes := total_congr hweights
  rw [label?, htally, Option.bind_some, elect?_eq htable (by omega), dominantKind_congr hweights]

/-- What the symbols of a text say of a slice of it. -/
def Outline.label? (o : Outline) (span : Span) : Option Label :=
  (Vote.label? (o.top.map fun t => (t.2, t.1.overlap span))).map fun type => { o.label span with type }

/-- Outermost symbols share no more with a span than it has bytes. -/
theorem Outline.total_votes_le {o : Outline} (h : o.top.Pairwise fun a b => a.1.span.stop ≤ b.1.span.start)
    (hle : span.start ≤ span.stop) :
    Vote.total (o.top.map fun t => (t.2, t.1.overlap span)) ≤ span.stop - span.start := by
  have htotal := total_votes h hle fun _ => true
  rw [List.filter_eq_self.2 fun _ _ => rfl] at htotal
  rw [htotal]
  exact Nat.le_trans List.countP_le_length (Nat.le_of_eq List.length_range')

theorem Outline.label?_eq {o : Outline} (h : o.top.Pairwise fun a b => a.1.span.stop ≤ b.1.span.start)
    (hle : span.start ≤ span.stop) (hstop : span.stop < UInt64.size / 2) : o.label? span = some (o.label span) := by
  have htotal := total_votes_le h hle
  rw [label?, Vote.label?_eq (by omega)]
  rfl

namespace Chunker

variable {symbols : List Symbol}

/-- Number of bytes of a span that lie in code blocks. -/
def codeBytes? (symbols : List Symbol) (span : Span) : Option Nat :=
  Vote.sum? ((symbols.filter (·.kind == .codeBlock)).map fun s => (s.kind, s.overlap span))

/-- What the symbols of a document say of a slice of it. -/
def sectionLabel? (symbols : List Symbol) (span : Span) : Option Label := do
  let code ← codeBytes? symbols span
  let type ← Vote.label? [(.codeBlock, code), (.heading, proseBytes symbols span)]
  return { sectionLabel symbols span with type }

theorem codeBytes?_eq (h : codeBytes symbols span < UInt64.size / 2) :
    codeBytes? symbols span = some (codeBytes symbols span) := by
  have htotal : Vote.total ((symbols.filter (·.kind == .codeBlock)).map fun s => (s.kind, s.overlap span)) =
      codeBytes symbols span := totalOf_map _ _ _
  rw [codeBytes?, Vote.sum?_eq (by omega), htotal]

theorem sectionLabel?_eq (hcode : codeBytes symbols span < UInt64.size / 2) (hstop : span.stop < UInt64.size / 2) :
    sectionLabel? symbols span = some (sectionLabel symbols span) := by
  -- Prose is what code leaves of the span, so that both together are no more than the greater of the two.
  have hprose : proseBytes symbols span ≤ span.stop - span.start - codeBytes symbols span := by
    rw [proseBytes]
    split <;> omega
  have htotal : Vote.total [(.codeBlock, codeBytes symbols span), (.heading, proseBytes symbols span)] =
      codeBytes symbols span + proseBytes symbols span := by
    simp [Vote.total]
  rw [sectionLabel?, codeBytes?_eq hcode, Option.bind_eq_bind, Option.bind_some, Vote.label?_eq (by omega)]
  rfl

/-! ## Cutting -/

/-- The chunks that a plan makes of a document. -/
def cutInWords? (plan : CutPlan) (document : Document) (size overlap : Nat) (language chunker : String)
    (label? : Span → Option Label) : Option (Except Failure (List Chunk)) :=
  let table := plan.table document.content.byteLen
  match table.windows document.content (Budget.ofSizes size overlap) with
  | none => some (.error (.breakdown none))
  | some windows =>
    if fitWords (plan.numbers ++ windows.flatMap Window.numbers) && windows.all fun w => (label? w.span).isSome then
      some (cutWith table document size overlap language chunker fun span => (label? span).getD ⟨.mixed, [], false⟩)
    else none

theorem assembleFrom_congr {label' : Span → Label} {windows : List Window} (lines : LineTable)
    (language chunker : String) (index total : Nat) (h : ∀ w ∈ windows, label w.span = label' w.span) :
    Chunk.assembleFrom document lines language chunker label index total windows =
      Chunk.assembleFrom document lines language chunker label' index total windows := by
  induction windows generalizing index with
  | nil => rfl
  | cons w windows ih =>
    have hchunk : Chunk.ofWindow? document lines language chunker label index total w =
        Chunk.ofWindow? document lines language chunker label' index total w := by
      rw [Chunk.ofWindow?, Chunk.ofWindow?, h w List.mem_cons_self]
    rw [Chunk.assembleFrom, Chunk.assembleFrom, hchunk, ih (index + 1) fun w hw => h w (List.mem_cons_of_mem _ hw)]

/-- **Cutting by a plan made of positions of a document makes no large numbers**, if its labels do not. -/
theorem cutInWords?_eq {label? : Span → Option Label} (hbuilt : plan.Built document.content)
    (hbytes : document.content.byteLen < UInt64.size / 2)
    (hlabel : ∀ span : Span, span.start ≤ span.stop → span.stop ≤ document.content.byteLen →
      label? span = some (label span)) (size overlap : Nat) (language chunker : String) :
    cutInWords? plan document size overlap language chunker label? =
      some (cutWith (plan.table document.content.byteLen) document size overlap language chunker label) := by
  obtain ⟨windows, hwindows, hcover⟩ := hbuilt.fits.exists_windows (Budget.ofSizes size overlap)
  have hspan : ∀ w ∈ windows, w.span.start ≤ w.span.stop ∧ w.span.stop ≤ document.content.byteLen := by
    intro w hw
    obtain ⟨slice, hslice, hblank⟩ := hcover.slices w.span (List.mem_map_of_mem hw)
    obtain ⟨hle, -, hstop, -⟩ := Text.stop_of_slice? hslice hblank
    exact ⟨hle, hstop⟩
  have hlabels : ∀ w ∈ windows, label? w.span = some (label w.span) := fun w hw =>
    hlabel w.span (hspan w hw).1 (hspan w hw).2
  have hnumbers : fitWords (plan.numbers ++ windows.flatMap Window.numbers) := by
    refine fitWords_iff.2 fun n hn => ?_
    rcases List.mem_append.1 hn with hn | hn
    · have hle := hbuilt.numbers_le n hn
      omega
    · obtain ⟨w, hw, hend⟩ := List.mem_flatMap.1 hn
      have hin := hspan w hw
      simp only [Window.numbers, List.mem_cons, List.not_mem_nil, or_false] at hend
      omega
  have hall : windows.all fun w => (label? w.span).isSome := by
    refine List.all_eq_true.2 fun w hw => ?_
    rw [hlabels w hw]
    rfl
  have hassemble :
      Chunk.assemble document language chunker (fun span => (label? span).getD ⟨.mixed, [], false⟩) windows =
        Chunk.assemble document language chunker label windows := by
    refine assembleFrom_congr _ _ _ _ _ fun w hw => ?_
    rw [hlabels w hw]
    rfl
  simp only [cutInWords?, hwindows, hnumbers, hall, Bool.and_true, if_true, cutWith, Option.bind_some, hassemble]

/-! ## The chunkers -/

/-- The chunks of a document by separators alone. -/
def splitPlainInWords? (document : Document) (size overlap : Nat) : Option (Except Failure (List Chunk)) :=
  if document.content.isBlank then some (.ok [])
  else
    let ext := document.extension?
    cutInWords? (separatorPlan document.content (isMarkup ext document.content)) document size overlap
      (languageName ext) plainName fun _ => some ⟨.fallback, [], false⟩

/-- The chunks of a markdown document. -/
def splitSectionsInWords? (parser : Parser) (grammars : Grammars) (document : Document) (strategy : Strategy) :
    Option (Except Failure (List Chunk)) :=
  if document.content.isBlank then some (.ok [])
  else match grammars.parse parser .markdown document.content with
    | .error _ => splitPlainInWords? document strategy.maxChunkSize strategy.chunkOverlap
    | .ok tree =>
      let symbols := tree.symbols .markdown document.content
      if symbols.all (fitWords ·.numbers) then
        cutInWords? (sectionPlan document.content symbols) document strategy.maxChunkSize strategy.chunkOverlap
          Language.markdown.name markdownName (sectionLabel? symbols)
      else none

/-- The chunks of a program text. -/
def splitUnitsInWords? (parser : Parser) (grammars : Grammars) (language : Language) (document : Document)
    (strategy : Strategy) : Option (Except Failure (List Chunk)) :=
  if document.content.isBlank then some (.ok [])
  else match grammars.parse parser language document.content with
    | .error _ => splitPlainInWords? document strategy.maxChunkSize strategy.chunkOverlap
    | .ok tree =>
      let symbols := tree.symbols language document.content
      if symbols.all (fitWords ·.numbers) then
        let outline := Outline.ofSymbols document.content symbols
        match outline.plan? strategy with
        | some plan =>
          cutInWords? plan document strategy.maxChunkSize strategy.chunkOverlap language.name (codeName language)
            outline.label?
        | none => some (.error (.breakdown none))
      else none

end Chunker

/-- Whether 64 bits have room for a tree of a text: for twice its nodes, and in markdown for twice the bytes of the text
for each level of code blocks in code blocks. A code block of markdown holds no other one, so that this is one level. -/
structure SyntaxTree.HasRoom (language : Language) (text : Text) (tree : SyntaxTree) : Prop where
  nodes : tree.root.preorder.length < UInt64.size / 2
  code : language = .markdown → tree.root.codeDepth language * text.byteLen < UInt64.size / 2

/-- The numbers of the symbols of a tree are not large. -/
theorem SyntaxTree.HasRoom.fitWords_symbols {attachments : List String} (h : tree.HasRoom language text)
    (hformed : tree.WellFormed text attachments) (hbytes : text.byteLen < UInt64.size / 2) :
    (tree.symbols language text).all (fitWords ·.numbers) := by
  have hsize : 4 ≤ UInt64.size := by decide
  refine List.all_eq_true.2 fun s hs => fitWords_iff.2 fun n hn => ?_
  obtain ⟨hlines, hline⟩ := hformed.line_le hs
  have hdepth := depth_lt hs
  have hnodes := h.nodes
  have hstop := Text.le_byteLen_of_isBoundary (hformed.located hs).stop_boundary
  have hstart := (hformed.located hs).start_le
  simp only [Symbol.numbers, List.mem_cons, List.not_mem_nil, or_false] at hn
  omega

namespace Chunker

/-- **Cutting by separators makes no large numbers.** -/
theorem splitPlainInWords?_eq (hbytes : document.content.byteLen < UInt64.size / 2) (size overlap : Nat) :
    splitPlainInWords? document size overlap = some (splitPlain document size overlap) := by
  rw [splitPlainInWords?, splitPlain]
  split
  · rfl
  · exact cutInWords?_eq (built_separatorPlan _ _) hbytes (fun _ _ _ => rfl) _ _ _ _

/-- **Cutting by sections makes no large numbers.** -/
theorem splitSectionsInWords?_eq (grammars : Grammars) (strategy : Strategy)
    (hbytes : document.content.byteLen < UInt64.size / 2)
    (hformed : (parser .markdown document.content).WellFormed document.content Language.markdown.attachmentKinds)
    (hroom : (parser .markdown document.content).HasRoom .markdown document.content) :
    splitSectionsInWords? parser grammars document strategy =
      some (splitSections parser grammars document strategy) := by
  rw [splitSectionsInWords?, splitSections]
  split
  · rfl
  · rw [Grammars.parse]
    by_cases hloaded : grammars.isLoaded .markdown
    · simp only [hloaded, if_true, hroom.fitWords_symbols hformed hbytes]
      refine cutInWords?_eq (built_sectionPlan _ _) hbytes (fun span _ hstop => sectionLabel?_eq ?_ (by omega)) _ _ _ _
      calc codeBytes ((parser .markdown document.content).symbols .markdown document.content) span
        _ ≤ _ := hformed.codeBytes_le span
        _ ≤ _ := Nat.mul_le_mul_left _ (Nat.le_trans (Nat.sub_le _ _) hstop)
        _ < UInt64.size / 2 := hroom.code rfl
    · simp only [hloaded]
      exact splitPlainInWords?_eq hbytes _ _

/-- **Cutting by units makes no large numbers.** -/
theorem splitUnitsInWords?_eq (grammars : Grammars) (strategy : Strategy)
    (hbytes : document.content.byteLen < UInt64.size / 2)
    (hformed : (parser language document.content).WellFormed document.content language.attachmentKinds)
    (hroom : (parser language document.content).HasRoom language document.content) :
    splitUnitsInWords? parser grammars language document strategy =
      some (splitUnits parser grammars language document strategy) := by
  rw [splitUnitsInWords?, splitUnits]
  split
  · rfl
  · rw [Grammars.parse]
    by_cases hloaded : grammars.isLoaded language
    · have hplan := hformed.sound.plan?_eq strategy
      have hbuilt : (((parser language document.content).outline language document.content).plan strategy).Built
          document.content := Outline.built_plan hformed.sound.lines strategy
      rw [SyntaxTree.outline] at hplan hbuilt
      simp only [hloaded, if_true, hroom.fitWords_symbols hformed hbytes, splitOutline, hplan]
      refine cutInWords?_eq hbuilt hbytes (fun span hle hstop => ?_) _ _ _ _
      exact Outline.label?_eq (SyntaxTree.pairwise_top hformed language) hle (by omega)
    · simp only [hloaded]
      exact splitPlainInWords?_eq hbytes _ _

end Chunker
end Chunkwise
