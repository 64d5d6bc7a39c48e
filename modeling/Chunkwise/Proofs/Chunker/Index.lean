import Chunkwise.Proofs.Chunk.Labels
import Chunkwise.Proofs.Window.Whole

/-!
# What is named can be found

A chunk lists exactly the names of the symbols that share a byte with it, comments apart, each once
(`Symbol.mem_namesIn`, `Symbol.nodup_namesIn`). Since no text is lost, something of every symbol that is not blank is
in a chunk (`Complete.exists_meeting`), so that its name is listed in one (`indexed_of_names`), and the chunk that a
comment begins in says so. Together: `names_can_be_found`.
-/

namespace Chunkwise

/-- Whether two spans share a byte. -/
def Span.Meets (a b : Span) : Prop := ∃ pos, a.covers pos ∧ b.covers pos

theorem Span.meets_iff {a b : Span} : a.Meets b ↔ a.shared b ≠ 0 := by
  simp only [Meets, covers, shared, Bool.and_eq_true, decide_eq_true_eq]
  constructor
  · rintro ⟨pos, ha, hb⟩
    omega
  · intro h
    exact ⟨max a.start b.start, by omega, by omega⟩

/-! ## The names in a span -/

namespace Symbol

variable {symbols : List Symbol} {span : Span} {name : String} {names : List String}

/-- The names of a span with what a symbol adds to them. -/
def addName (span : Span) (names : List String) (s : Symbol) : List String :=
  if s.kind.isDocumentation || s.overlap span == 0 then names
  else match s.name with
    | some name => if names.contains name then names else names ++ [name]
    | none => names

theorem namesIn_eq (symbols : List Symbol) (span : Span) : namesIn symbols span = symbols.foldl (addName span) [] := rfl

/-- Whether a symbol gives a name to a span: it is no comment, and shares a byte with it. -/
def Names (s : Symbol) (name : String) (span : Span) : Prop :=
  ¬ s.kind.isDocumentation ∧ s.span.Meets span ∧ s.name = some name

theorem mem_addName {s : Symbol} : name ∈ addName span names s ↔ name ∈ names ∨ s.Names name span := by
  rw [addName, Names, Span.meets_iff, ← overlap]
  by_cases hskip : s.kind.isDocumentation ∨ s.overlap span = 0
  · rw [if_pos (by simpa using hskip)]
    have hnot : ¬ (¬ s.kind.isDocumentation ∧ s.overlap span ≠ 0 ∧ s.name = some name) :=
      fun h => hskip.elim h.1 h.2.1
    simp only [hnot, or_false]
  · rw [if_neg (by simpa using hskip)]
    obtain ⟨hkind, hmeets⟩ := not_or.1 hskip
    cases s.name with
    | none => simp
    | some own =>
      simp only [ne_eq, hkind, hmeets, not_false_eq_true, true_and, Option.some.injEq, List.contains_iff_mem]
      split
      · rename_i hmem
        exact ⟨Or.inl, fun h => h.elim id fun heq => heq.2 ▸ hmem⟩
      · simp [eq_comm]

theorem mem_foldl_addName : name ∈ symbols.foldl (addName span) names ↔
    name ∈ names ∨ ∃ s ∈ symbols, s.Names name span := by
  induction symbols generalizing names with
  | nil => simp
  | cons s symbols ih =>
    rw [List.foldl_cons, ih, mem_addName, or_assoc]
    simp only [List.mem_cons, exists_eq_or_imp]

/-- The names in a span are those of the symbols that share a byte with it, comments apart. -/
theorem mem_namesIn : name ∈ namesIn symbols span ↔ ∃ s ∈ symbols, s.Names name span := by
  rw [namesIn_eq, mem_foldl_addName]
  simp

theorem nodup_addName (h : names.Nodup) (s : Symbol) : (addName span names s).Nodup := by
  rw [addName]
  split
  · exact h
  · split
    · rename_i name _
      split
      · exact h
      · rename_i hnew
        rw [List.contains_iff_mem] at hnew
        exact List.nodup_append.2 ⟨h, by simp, fun a ha b hb heq => hnew (List.mem_singleton.1 hb ▸ heq ▸ ha)⟩
    · exact h

theorem nodup_foldl_addName (h : names.Nodup) : (symbols.foldl (addName span) names).Nodup := by
  induction symbols generalizing names with
  | nil => exact h
  | cons s symbols ih => exact ih (nodup_addName h s)

/-- No name is listed twice. -/
theorem nodup_namesIn (symbols : List Symbol) (span : Span) : (namesIn symbols span).Nodup :=
  nodup_foldl_addName List.nodup_nil

end Symbol

namespace Chunker

variable {text : Text} {chunks : List Chunk} {span : Span} {pos : Nat} {char : Char} {symbols : List Symbol}

/-! ## The chunk that holds something -/

/-- Every character that is not blank begins in a chunk. -/
theorem Complete.exists_covering (h : Complete text chunks) (hchar : text.charAt? pos = some char)
    (hink : ¬ isBlankChar char) : ∃ c ∈ chunks, c.span.covers pos := by
  obtain ⟨s, hs, hstart, hstop⟩ := h.covered.chars pos char hchar hink
  obtain ⟨c, hc, rfl⟩ := List.mem_map.1 hs
  have hsize := char.utf8Size_pos
  refine ⟨c, hc, ?_⟩
  simp only [Span.covers_iff]
  omega

/-- Something of what is not blank is in a chunk. -/
theorem Complete.exists_meeting (h : Complete text chunks) (hink : text.HasInk span) :
    ∃ c ∈ chunks, span.Meets c.span := by
  obtain ⟨slice, hslice, hnot⟩ := hink
  obtain ⟨pos, char, hchar, hblank, hcovers⟩ := Text.exists_ink_of_slice? hslice hnot
  obtain ⟨c, hc, hpos⟩ := h.exists_covering hchar hblank
  exact ⟨c, hc, pos, hcovers, hpos⟩

/-! ## The index -/

/-- What the names in the chunks of a text must be for its symbols to be found by them. -/
structure Indexed (text : Text) (symbols : List Symbol) (chunks : List Chunk) : Prop where
  /-- The name of a symbol that is not blank is in a chunk. -/
  found : ∀ s ∈ symbols, ∀ name, s.name = some name → text.HasInk s.span → ∃ c ∈ chunks, name ∈ c.metadata.symbols
  /-- A name in a chunk is that of a symbol that shares a byte with it. -/
  earned : ∀ c ∈ chunks, ∀ name ∈ c.metadata.symbols, ∃ s ∈ symbols, s.name = some name ∧ s.span.Meets c.span
  once : ∀ c ∈ chunks, c.metadata.symbols.Nodup

theorem indexed_of_names (h : Complete text chunks)
    (hnames : ∀ c ∈ chunks, c.metadata.symbols = Symbol.namesIn symbols c.span) :
    Indexed text (symbols.filter (!·.kind.isDocumentation)) chunks where
  found := by
    intro s hs name hname hink
    obtain ⟨hmem, hkind⟩ := List.mem_filter.1 hs
    obtain ⟨c, hc, hmeets⟩ := h.exists_meeting hink
    refine ⟨c, hc, ?_⟩
    rw [hnames c hc, Symbol.mem_namesIn]
    exact ⟨s, hmem, by simpa using hkind, hmeets, hname⟩
  earned := by
    intro c hc name hname
    rw [hnames c hc, Symbol.mem_namesIn] at hname
    obtain ⟨s, hmem, hkind, hmeets, hname⟩ := hname
    exact ⟨s, List.mem_filter.2 ⟨hmem, by simpa using hkind⟩, hname, hmeets⟩
  once := fun c hc => hnames c hc ▸ Symbol.nodup_namesIn symbols c.span

/-- **What is named can be found.** The chunks of program text have the names of all definitions that are not blank,
and no others, and one says that it has a comment if one begins with something that is not blank; those of a markdown
document have the names of its sections. -/
theorem names_can_be_found (parser : Parser) (grammars : Grammars) (document : Document) (strategy : Strategy) :
    (∀ language, grammars.isLoaded language →
      (parser language document.content).WellFormed document.content language.attachmentKinds →
      ∃ chunks, (code parser grammars language).chunk document strategy = .ok chunks ∧
        Indexed document.content
          (((parser language document.content).symbols language document.content).filter (!·.kind.isDocumentation))
          chunks ∧
        ∀ s ∈ (parser language document.content).symbols language document.content, s.kind.isDocumentation →
          ∀ first, document.content.charAt? s.span.start = some first → ¬ isBlankChar first →
            ∃ c ∈ chunks, c.metadata.containsDocumentation) ∧
    (grammars.isLoaded .markdown →
      ∃ chunks, (markdown parser grammars).chunk document strategy = .ok chunks ∧
        Indexed document.content
          (((parser .markdown document.content).symbols .markdown document.content).filter (·.kind == .heading))
          chunks) := by
  constructor
  · intro language hloaded hformed
    obtain ⟨chunks, hchunks, hcomplete, hlabel⟩ := exists_units parser document strategy hloaded hformed
    refine ⟨chunks, hchunks, ?_, ?_⟩
    · exact indexed_of_names hcomplete fun c hc => congrArg Label.symbols (hlabel c hc)
    · intro s hs hkind first hfirst hink
      obtain ⟨c, hc, hcovers⟩ := hcomplete.exists_covering hfirst hink
      have hdocumented := congrArg Label.documented (hlabel c hc)
      refine ⟨c, hc, hdocumented.trans (List.any_eq_true.2 ⟨s, ?_, hcovers⟩)⟩
      exact List.mem_filter.2 ⟨hs, hkind⟩
  · intro hloaded
    obtain ⟨chunks, hchunks, hcomplete, hlabel⟩ := exists_sections parser document strategy hloaded
    refine ⟨chunks, hchunks, ?_⟩
    have hindexed := indexed_of_names hcomplete fun c hc => congrArg Label.symbols (hlabel c hc)
    rw [List.filter_eq_self.2] at hindexed
    · exact hindexed
    · intro s hs
      have hkind := (List.mem_filter.1 hs).2
      rw [eq_of_beq hkind]
      rfl

/-- A function and a comment below it. -/
def calledText : Text := ['f', 'n', ' ', 'a', '(', ')', ' ', '{', '}', '\n', '/', '/', ' ', 'b', '\n']

def calledTree : SyntaxTree :=
  ⟨.mk "source_file" true ⟨0, 15⟩ {}
    [.mk "function_item" true ⟨0, 9⟩ { name := some 1 }
      [.mk "fn" false ⟨0, 2⟩ {} [], .mk "identifier" true ⟨3, 4⟩ {} [], .mk "parameters" true ⟨4, 6⟩ {} [],
        .mk "block" true ⟨7, 9⟩ {} []],
    .mk "line_comment" true ⟨10, 14⟩ {} []], false⟩

theorem symbols_calledTree : calledTree.symbols .rust calledText =
    [⟨some "a", .function, 1, 1, ⟨0, 9⟩, 0, none⟩, ⟨none, .comment, 2, 2, ⟨10, 14⟩, 0, none⟩] :=
  (SyntaxTree.symbols_eq_collect (by decide +kernel)).trans (by decide +kernel)

/-- A heading. -/
def titledText : Text := ['#', ' ', 't', '\n']

def titledTree : SyntaxTree :=
  ⟨.mk "document" true ⟨0, 4⟩ {}
    [.mk "section" true ⟨0, 4⟩ {}
      [.mk "atx_heading" true ⟨0, 4⟩ {}
        [.mk "atx_h1_marker" true ⟨0, 1⟩ {} [], .mk "inline" true ⟨2, 3⟩ {} []]]], false⟩

theorem symbols_titledTree : titledTree.symbols .markdown titledText =
    [⟨some "t", .heading, 1, 1, ⟨0, 4⟩, 0, none⟩] :=
  (SyntaxTree.symbols_eq_collect (by decide +kernel)).trans (by decide +kernel)

/-- However small the chunks are, the names of the function and of the section are in one, and so is the comment. -/
theorem names_can_be_found_title :
    ((Grammars.ofLanguages [.rust]).isLoaded .rust ∧
        calledTree.WellFormed calledText Language.rust.attachmentKinds ∧ calledText.HasInk ⟨0, 9⟩ ∧
        ∃ chunks, (code (fun _ _ => calledTree) (Grammars.ofLanguages [.rust]) .rust).chunk
            ⟨calledText, { filePath := "a.rs" }⟩ { maxChunkSize := 1 } = .ok chunks ∧
          (∃ c ∈ chunks, "a" ∈ c.metadata.symbols) ∧ ∃ c ∈ chunks, c.metadata.containsDocumentation) ∧
      (Grammars.ofLanguages [.markdown]).isLoaded .markdown ∧ titledText.HasInk ⟨0, 4⟩ ∧
        ∃ chunks, (markdown (fun _ _ => titledTree) (Grammars.ofLanguages [.markdown])).chunk
            ⟨titledText, { filePath := "a.md" }⟩ { maxChunkSize := 1 } = .ok chunks ∧
          ∃ c ∈ chunks, "t" ∈ c.metadata.symbols := by
  have hrust : (Grammars.ofLanguages [.rust]).isLoaded .rust := by decide
  have hmarkdown : (Grammars.ofLanguages [.markdown]).isLoaded .markdown := by decide
  have hformed : calledTree.WellFormed calledText Language.rust.attachmentKinds := by decide
  have hfunction : calledText.HasInk ⟨0, 9⟩ := ⟨calledText.take 9, by decide, by decide⟩
  have hsection : titledText.HasInk ⟨0, 4⟩ := ⟨titledText, by decide, by decide⟩
  obtain ⟨chunks, hchunks, hindexed, hdocumented⟩ := (names_can_be_found (fun _ _ => calledTree)
    (Grammars.ofLanguages [.rust]) ⟨calledText, { filePath := "a.rs" }⟩ { maxChunkSize := 1 }).1 .rust hrust hformed
  obtain ⟨chunks', hchunks', hindexed'⟩ := (names_can_be_found (fun _ _ => titledTree)
    (Grammars.ofLanguages [.markdown]) ⟨titledText, { filePath := "a.md" }⟩ { maxChunkSize := 1 }).2 hmarkdown
  rw [symbols_calledTree] at hindexed hdocumented
  rw [symbols_titledTree] at hindexed'
  refine ⟨⟨hrust, hformed, hfunction, chunks, hchunks, ?_, ?_⟩, hmarkdown, hsection, chunks', hchunks', ?_⟩
  · exact hindexed.found _ List.mem_cons_self "a" rfl hfunction
  · exact hdocumented _ (List.mem_cons_of_mem _ List.mem_cons_self) rfl '/' (by decide) (by decide)
  · exact hindexed'.found _ List.mem_cons_self "t" rfl hsection

end Chunker
end Chunkwise
