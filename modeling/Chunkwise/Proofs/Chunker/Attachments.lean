import Chunkwise.Proofs.Chunker.Checked
import Chunkwise.Proofs.Chunker.Members

/-!
# Attachments travel with their definition

The unit of a definition begins where the climb from its first line ends, and the units of the definitions before and
behind it begin further up and further down (`topLines_over`). With nothing but attachments and comments
between an attachment and the definition, the lines below the last lead above a line are blank
(`isBlank_of_last_lead`). The climb therefore reaches the attachment if no lead on the way holds it up
(`leadFrom_le_of_linked`), and no unit begins between the two (`attachments_travel`). A lead does hold it up when it
begins on the last line of another one, and so does a comment that is not kept or that does not touch what is below it
(`attachments_left_behind`).
-/

namespace Chunkwise

namespace Outline

variable {o : Outline} {strategy : Strategy} {comments : List Symbol} {a s last lead : Symbol}
variable {top before : List (Symbol × SymbolKind)} {above floor line : Nat}

/-! ## What is between an attachment and a definition -/

/-- Whether an attachment or a comment covers a position. -/
def LedAt (o : Outline) (pos : Nat) : Prop := ∃ lead ∈ o.attachments ++ o.comments, lead.span.covers pos

instance (o : Outline) (pos : Nat) : Decidable (o.LedAt pos) :=
  inferInstanceAs (Decidable (∃ lead ∈ o.attachments ++ o.comments, lead.span.covers pos))

/-- Whether there is nothing between two symbols but attachments, comments and blanks. -/
def ClearTo (o : Outline) (a s : Symbol) : Prop :=
  ∀ p ∈ o.text.zipIdx, Span.covers ⟨a.span.stop, s.span.start⟩ (o.text.offset p.2) →
    isBlankChar p.1 ∨ o.LedAt (o.text.offset p.2)

instance (o : Outline) (a s : Symbol) : Decidable (o.ClearTo a s) :=
  inferInstanceAs (Decidable (∀ p ∈ o.text.zipIdx, Span.covers ⟨a.span.stop, s.span.start⟩ (o.text.offset p.2) →
    isBlankChar p.1 ∨ o.LedAt (o.text.offset p.2)))

/-- Whether an attachment stands over a definition: both start their lines, and nothing else is between them. -/
structure StandsOver (o : Outline) (a s : Symbol) : Prop where
  attachment : a ∈ o.attachments
  opens : o.startsLine a
  starts : o.startsLine s
  above : a.lineEnd < s.lineStart
  clear : o.ClearTo a s

/-- Whether a lead ends on the lines from an attachment on, and above a definition. -/
def EndsBetween (a s lead : Symbol) : Prop := a.lineEnd ≤ lead.lineEnd ∧ lead.lineEnd < s.lineStart

instance (a s lead : Symbol) : Decidable (EndsBetween a s lead) := inferInstanceAs (Decidable (_ ∧ _))

/-- Whether nothing holds up the climb from a definition to an attachment over it. -/
structure Linked (o : Outline) (leads : List Symbol) (a s : Symbol) : Prop where
  startsLine : ∀ lead ∈ leads, EndsBetween a s lead → o.startsLine lead
  /-- No lead reaches into the line on which a later one or the definition begins. -/
  apart : ∀ lead ∈ leads, ∀ below ∈ s :: leads, below = s ∨ EndsBetween a s below →
    lead.lineStart < below.lineStart → lead.lineEnd < below.lineStart
  /-- There is no blank line right below a comment that is kept. -/
  touching : ∀ lead ∈ leads, EndsBetween a s lead → lead.kind ≠ .attachment →
    ¬ Text.isBlank (o.lines.lineText (lead.lineEnd + 1))
  /-- A comment stands on the lines of a lead; one that is kept is a lead itself. -/
  kept : ∀ c ∈ o.comments, a.lineEnd < c.lineEnd → c.lineStart < s.lineStart →
    ∃ lead ∈ leads, lead.lineStart ≤ c.lineStart ∧ c.lineEnd ≤ lead.lineEnd
  /-- No comment begins the line of the definition. -/
  alone : ∀ c ∈ o.freeComments, c.lineStart = s.lineStart → ¬ o.startsLine c

/-! ## The climb -/

theorem lineLe_trans (a b c : Symbol) (hab : lineLe a b) (hbc : lineLe b c) : lineLe a c := by
  simp only [lineLe, Bool.or_eq_true, Bool.and_eq_true, beq_iff_eq, decide_eq_true_eq] at *
  omega

theorem lineLe_total (a b : Symbol) : lineLe a b || lineLe b a := by
  simp only [lineLe, Bool.or_eq_true, Bool.and_eq_true, beq_iff_eq, decide_eq_true_eq]
  omega

theorem pairwise_leads (o : Outline) (strategy : Strategy) (comments : List Symbol) :
    (o.leads strategy comments).Pairwise fun a b => lineLe a b :=
  List.pairwise_mergeSort lineLe_trans lineLe_total _

/-- Among the leads that end above a line, the last one ends furthest down. -/
theorem exists_last_lead (hlead : lead ∈ o.leads strategy comments) (h : lead.lineEnd < line) :
    ∃ last ∈ o.leads strategy comments,
      ((o.leads strategy comments).filter (·.lineEnd < line)).getLast? = some last ∧ last.lineEnd < line ∧
        ∀ other ∈ o.leads strategy comments, other.lineEnd < line → other.lineEnd ≤ last.lineEnd := by
  cases hlast : ((o.leads strategy comments).filter (·.lineEnd < line)).getLast? with
  | none =>
    have hmem : lead ∈ (o.leads strategy comments).filter (·.lineEnd < line) :=
      List.mem_filter.2 ⟨hlead, decide_eq_true h⟩
    rw [List.getLast?_eq_none_iff.1 hlast] at hmem
    cases hmem
  | some last =>
    obtain ⟨hmem, habove⟩ := List.mem_filter.1 (List.mem_of_getLast? hlast)
    refine ⟨last, hmem, rfl, of_decide_eq_true habove, fun other hother hlt => ?_⟩
    obtain ⟨front, hfront⟩ := List.getLast?_eq_some_iff.1 hlast
    have hin : other ∈ (o.leads strategy comments).filter (·.lineEnd < line) :=
      List.mem_filter.2 ⟨hother, decide_eq_true hlt⟩
    have hpairs := (pairwise_leads o strategy comments).filter (·.lineEnd < line)
    rw [hfront] at hin hpairs
    rcases List.mem_append.1 hin with hin | hin
    · have hle := (List.pairwise_append.1 hpairs).2.2 other hin last List.mem_cons_self
      simp only [lineLe, Bool.or_eq_true, Bool.and_eq_true, beq_iff_eq, decide_eq_true_eq] at hle
      omega
    · obtain rfl := List.mem_singleton.1 hin
      exact Nat.le_refl _

/-- A climb goes on from the last lead above it. -/
theorem leadFrom_eq_of_last {leads : List Symbol} (hlast : (leads.filter (·.lineEnd < line)).getLast? = some last)
    (hlt : last.lineStart < line) (htouches : o.touches last line) (hfloor : floor < last.lineStart)
    (hstarts : o.startsLine last) : o.leadFrom leads floor line = o.leadFrom leads floor last.lineStart := by
  rw [leadFrom, hlast]
  simp only [dif_pos hlt, htouches, hfloor, hstarts, decide_true, Bool.and_true, if_true]

/-- **Between the last lead above a line and the line there are only blank lines.** -/
theorem isBlank_of_last_lead (h : o.Sound) (hs : s.Located o.text) (hstands : o.StandsOver a s)
    (hlinked : o.Linked (o.leads strategy comments) a s) {below : Symbol}
    (hbelow : below ∈ s :: o.leads strategy comments) (hends : below = s ∨ EndsBetween a s below)
    (hmax : ∀ other ∈ o.leads strategy comments, other.lineEnd < below.lineStart → other.lineEnd < line)
    (hline : a.lineEnd < line) (hlt : line < below.lineStart) (hle : below.lineStart ≤ s.lineStart) :
    Text.isBlank (o.lines.lineText line) := by
  refine Decidable.byContradiction fun hink => ?_
  rw [h.lines] at hink
  obtain ⟨i, c, hc, hblank, hstart, hend⟩ := LineTable.exists_ink hink
  have hbehind : a.span.stop ≤ o.text.offset i :=
    calc a.span.stop
      _ ≤ (LineTable.ofText o.text).lineEnd a.lineEnd := (h.attachments a hstands.attachment).le_lineEnd
      _ ≤ (LineTable.ofText o.text).lineStart line := LineTable.lineEnd_le_lineStart hline
      _ ≤ o.text.offset i := hstart
  have hbefore : o.text.offset i < s.span.start :=
    calc o.text.offset i
      _ < (LineTable.ofText o.text).lineEnd line := hend
      _ ≤ (LineTable.ofText o.text).lineStart s.lineStart := LineTable.lineEnd_le_lineStart (Nat.lt_of_lt_of_le hlt hle)
      _ ≤ s.span.start := hs.lineStart_le
  have hbetween : Span.covers ⟨a.span.stop, s.span.start⟩ (o.text.offset i) := by
    simp [Span.covers, hbehind, hbefore]
  have hmem : (c, i) ∈ o.text.zipIdx := List.mem_zipIdx_iff_getElem?.2 hc
  obtain ⟨lead, hlead, hcovers⟩ := (hstands.clear _ hmem hbetween).resolve_left hblank
  -- What stands on the line is a lead that ends above the lower line, or one that reaches into it.
  have hreach : ∃ lead ∈ o.leads strategy comments, lead.lineStart ≤ line ∧ line ≤ lead.lineEnd := by
    rcases List.mem_append.1 hlead with hlead | hlead
    · have hlines := (h.attachments lead hlead).line_mem hcovers hstart hend
      exact ⟨lead, mem_leads.2 (Or.inl hlead), hlines⟩
    · have hlines := (h.comments lead hlead).line_mem hcovers hstart hend
      obtain ⟨tall, htall, hfirst, hlast⟩ := hlinked.kept lead hlead (by omega) (by omega)
      exact ⟨tall, htall, by omega, by omega⟩
  obtain ⟨tall, htall, hfirst, hlast⟩ := hreach
  rcases Nat.lt_or_ge tall.lineEnd below.lineStart with habove | hinto
  · have := hmax tall htall habove
    omega
  · have := hlinked.apart tall htall below hbelow hends (by omega)
    omega

/-- **The climb from a definition reaches every attachment that is linked to it.** -/
theorem leadFrom_le_of_linked (h : o.Sound) (hs : s.Located o.text) (hstands : o.StandsOver a s)
    (hcomments : ∀ c ∈ comments, c.Located o.text) (hlinked : o.Linked (o.leads strategy comments) a s)
    (hfloor : floor < a.lineStart) {below : Symbol} (hbelow : below ∈ s :: o.leads strategy comments)
    (hends : below = s ∨ EndsBetween a s below) (hover : a.lineStart < below.lineStart)
    (hle : below.lineStart ≤ s.lineStart) :
    o.leadFrom (o.leads strategy comments) floor below.lineStart ≤ a.lineStart := by
  induction hn : below.lineStart using Nat.strongRecOn generalizing below with
  | _ n ih =>
    subst hn
    have hmem : a ∈ o.leads strategy comments := mem_leads.2 (Or.inl hstands.attachment)
    have hends_a : EndsBetween a s a := ⟨Nat.le_refl _, hstands.above⟩
    have habove := hlinked.apart a hmem below hbelow hends hover
    obtain ⟨last, hlast, hget, hbefore, hmax⟩ := exists_last_lead hmem habove
    have hlocated := h.located_leads hcomments strategy last hlast
    have hfar := hmax a hmem habove
    have hends_last : EndsBetween a s last := ⟨hfar, Nat.lt_of_lt_of_le hbefore hle⟩
    have hblank : ∀ line, last.lineEnd < line → line < below.lineStart → Text.isBlank (o.lines.lineText line) := by
      intro line hline hlt
      refine isBlank_of_last_lead h hs hstands hlinked hbelow hends (fun other hother hother_above => ?_)
        (Nat.lt_of_le_of_lt hfar hline) hlt hle
      exact Nat.lt_of_le_of_lt (hmax other hother hother_above) hline
    have htouches : o.touches last below.lineStart := by
      simp only [touches, Bool.or_eq_true, Bool.and_eq_true, beq_iff_eq]
      by_cases hkind : last.kind = .attachment
      · refine Or.inr ⟨hkind, List.all_eq_true.2 fun line hline => ?_⟩
        obtain ⟨hfirst, hlimit⟩ := List.mem_range'_1.1 hline
        exact hblank line (by omega) (by omega)
      · refine Or.inl ?_
        have hink := hlinked.touching last hlast hends_last hkind
        refine Nat.le_antisymm hbefore (Nat.le_of_not_lt fun hgap => ?_)
        exact hink (hblank _ (Nat.lt_succ_self _) hgap)
    have hstart : a.lineStart ≤ last.lineStart := by
      refine Nat.le_of_not_lt fun hlt => ?_
      have hupper := hlinked.apart last hlast a (List.mem_cons_of_mem _ hmem) (Or.inr hends_a) hlt
      have hlines := (h.attachments a hstands.attachment).line_le
      omega
    have hup : last.lineStart < below.lineStart := Nat.lt_of_le_of_lt hlocated.line_le hbefore
    rw [leadFrom_eq_of_last hget hup htouches (by omega) (hlinked.startsLine last hlast hends_last)]
    rcases Nat.lt_or_eq_of_le hstart with hlower | hsame
    · exact ih _ hup (List.mem_cons_of_mem _ hlast) (Or.inr hends_last) hlower (by omega) rfl
    · rw [hsame]
      exact leadFrom_le o _ _ _

/-! ## Where units begin -/

/-- The units of definitions begin below what is above the first of them. -/
theorem lt_of_mem_topLines (h : some line ∈ o.topLines strategy above top) : above < line := by
  induction top generalizing above with
  | nil => cases h
  | cons u top ih =>
    rw [topLines] at h
    rcases List.mem_cons.1 h with hfirst | h
    · split at hfirst
      · rename_i hstarts
        simp only [Bool.and_eq_true, decide_eq_true_eq] at hstarts
        obtain rfl := Option.some.inj hfirst
        exact lt_leadFrom_of_le (Nat.le_refl _) hstarts.1
      · cases hfirst
    · have hlt := ih h
      omega

/-- The unit of a definition begins at a line or above it if every climb from below that line reaches it, and the units
of the others begin above the line or below the definition. -/
theorem topLines_over (kind : SymbolKind) (after : List (Symbol × SymbolKind)) (hs : s.Located o.text)
    (hstarts : o.startsLine s) (hover : line < s.lineStart)
    (hclimb : ∀ floor, floor < line → o.leadFrom (o.leads strategy o.freeComments) floor s.lineStart ≤ line)
    (hbefore : ∀ u ∈ before, u.1.lineStart ≤ u.1.lineEnd ∧ u.1.lineEnd < line) (habove : above < line) :
    (∀ first, some first ∈ o.topLines strategy above (before ++ (s, kind) :: after) →
        first ≤ line ∨ s.lineStart < first) ∧
      ∀ l, line ≤ l → l < s.lineStart →
        inLead (before ++ (s, kind) :: after) (o.topLines strategy above (before ++ (s, kind) :: after)) l := by
  induction before generalizing above with
  | nil =>
    have hbelow : above < s.lineStart := Nat.lt_trans habove hover
    rw [List.nil_append, topLines, hstarts, Bool.and_true, decide_eq_true hbelow, if_pos rfl]
    constructor
    · intro first hmem
      rcases List.mem_cons.1 hmem with hfirst | hmem
      · obtain rfl := Option.some.inj hfirst
        exact Or.inl (hclimb above habove)
      · have hlower := lt_of_mem_topLines hmem
        have := hs.line_le
        omega
    · intro l hfirst hlast
      simp only [inLead, List.zip_cons_cons, List.any_cons, Bool.or_eq_true, Bool.and_eq_true, decide_eq_true_eq]
      exact Or.inl ⟨Nat.le_trans (hclimb above habove) hfirst, hlast⟩
  | cons u before ih =>
    obtain ⟨hu, hbefore⟩ := List.forall_mem_cons.1 hbefore
    have habove' : max above u.1.lineEnd < line := Nat.max_lt.2 ⟨habove, hu.2⟩
    obtain ⟨hlines, hlead⟩ := ih hbefore habove'
    rw [List.cons_append, topLines]
    constructor
    · intro first hmem
      rcases List.mem_cons.1 hmem with hfirst | hmem
      · split at hfirst
        · obtain rfl := Option.some.inj hfirst
          have hle := leadFrom_le o (o.leads strategy o.freeComments) above u.1.lineStart
          omega
        · cases hfirst
      · exact hlines first hmem
    · intro l hfirst hlast
      simp only [inLead, List.zip_cons_cons, List.any_cons, Bool.or_eq_true]
      exact Or.inr (hlead l hfirst hlast)

/-- The unit of a definition that an attachment is linked to begins at the attachment or above it, and the units of
the others begin above the attachment or below the definition. -/
theorem topLines_around (kind : SymbolKind) (after : List (Symbol × SymbolKind)) (h : o.Sound)
    (hs : s.Located o.text) (hstands : o.StandsOver a s) (hlinked : o.Linked (o.leads strategy o.freeComments) a s)
    (hbefore : ∀ u ∈ before, u.1.lineStart ≤ u.1.lineEnd ∧ u.1.lineEnd < a.lineStart) (habove : above < a.lineStart) :
    (∀ line, some line ∈ o.topLines strategy above (before ++ (s, kind) :: after) →
        line ≤ a.lineStart ∨ s.lineStart < line) ∧
      ∀ line, a.lineStart ≤ line → line < s.lineStart →
        inLead (before ++ (s, kind) :: after) (o.topLines strategy above (before ++ (s, kind) :: after)) line := by
  have hover : a.lineStart < s.lineStart := Nat.lt_of_le_of_lt (h.attachments a hstands.attachment).line_le hstands.above
  refine topLines_over kind after hs hstands.starts hover (fun floor hfloor => ?_) hbefore habove
  exact leadFrom_le_of_linked h hs hstands h.freeComments hlinked hfloor List.mem_cons_self (Or.inl rfl) hover
    (Nat.le_refl _)

/-- Units begin where those of definitions do, or at comments that are in no lead. -/
theorem mem_unitLines (h : line ∈ o.unitLines strategy) : some line ∈ o.topLines strategy 0 o.top ∨
    ∃ c ∈ o.freeComments, c.lineStart = line ∧ o.startsLine c ∧ ¬ inLead o.top (o.topLines strategy 0 o.top) line := by
  have hmem : line ∈ (o.topLines strategy 0 o.top).filterMap id ++ o.commentLines (o.topLines strategy 0 o.top) := by
    rw [unitLines, Ascending.mem_ofList] at h
    split at h
    · exact (List.mem_filter.1 h).1
    · exact h
  rcases List.mem_append.1 hmem with hmem | hmem
  · simp only [List.mem_filterMap, id] at hmem
    obtain ⟨_, hmem, rfl⟩ := hmem
    exact Or.inl hmem
  · obtain ⟨c, hc, rfl⟩ := List.mem_map.1 hmem
    obtain ⟨hfree, hkept⟩ := List.mem_filter.1 hc
    simp only [Bool.and_eq_true, Bool.not_eq_true'] at hkept
    exact Or.inr ⟨c, hfree, rfl, hkept.2, Bool.eq_false_iff.1 hkept.1⟩

end Outline

namespace SyntaxTree

variable {tree : SyntaxTree} {language : Language} {text : Text}

/-- **Attachments travel with their definition**: no unit begins between an attachment and the definition that it is
linked to. -/
theorem attachments_travel (hformed : tree.WellFormed text language.attachmentKinds) (strategy : Strategy)
    {before after : List (Symbol × SymbolKind)} {s a : Symbol} {kind : SymbolKind}
    (htop : (tree.outline language text).top = before ++ (s, kind) :: after)
    (hbefore : ∀ u ∈ before, u.1.lineEnd < a.lineStart) (hstands : (tree.outline language text).StandsOver a s)
    (hlinked : (tree.outline language text).Linked
      ((tree.outline language text).leads strategy (tree.outline language text).freeComments) a s) :
    ∀ line ∈ (tree.outline language text).unitLines strategy, ¬ (a.lineStart < line ∧ line ≤ s.lineStart) := by
  have hsound := hformed.sound
  have hlocated : ∀ u ∈ before ++ (s, kind) :: after, u.1.Located text := by
    rw [← htop]
    exact hsound.top
  have hs : s.Located text := hlocated (s, kind) (List.mem_append_right _ List.mem_cons_self)
  have hends : ∀ u ∈ before, u.1.lineStart ≤ u.1.lineEnd ∧ u.1.lineEnd < a.lineStart := fun u hu =>
    ⟨(hlocated u (List.mem_append_left _ hu)).line_le, hbefore u hu⟩
  obtain ⟨hlines, hlead⟩ := Outline.topLines_around kind after hsound hs hstands hlinked hends
    (hsound.attachments a hstands.attachment).line_pos
  intro line hline ⟨hbelow, hupto⟩
  rcases Outline.mem_unitLines hline with hmem | ⟨c, hc, rfl, hopens, hfree⟩
  · rw [htop] at hmem
    have := hlines line hmem
    omega
  · rw [htop] at hfree
    rcases Nat.lt_or_eq_of_le hupto with hlt | hsame
    · exact hfree (hlead _ (Nat.le_of_lt hbelow) hlt)
    · exact hlinked.alone c hc hsame hopens

/-- A function under two attachments and a comment, with a blank line among them. -/
def coveredText : Text :=
  ['#', '[', 'a', ']', '\n', '\n', '#', '[', 'b', ']', '\n', '/', '/', ' ', 'c', '\n', 'f', 'n', ' ', 'f', '(', ')',
    ' ', '{', '}', '\n']

def coveredTree : SyntaxTree :=
  ⟨.mk "source_file" true ⟨0, 26⟩ {} [.mk "attribute_item" true ⟨0, 4⟩ {} [], .mk "attribute_item" true ⟨6, 10⟩ {} [],
    .mk "line_comment" true ⟨11, 15⟩ {} [], .mk "function_item" true ⟨16, 25⟩ {} []], false⟩

def firstAttachment : Symbol := ⟨none, .attachment, 1, 1, ⟨0, 4⟩, 0, none⟩

def coveredFunction : Symbol := ⟨none, .function, 5, 5, ⟨16, 25⟩, 0, none⟩

theorem symbols_coveredTree : coveredTree.symbols .rust coveredText =
    [firstAttachment, ⟨none, .attachment, 3, 3, ⟨6, 10⟩, 0, none⟩, ⟨none, .comment, 4, 4, ⟨11, 15⟩, 0, none⟩,
      coveredFunction] :=
  (symbols_eq_collect (by decide +kernel)).trans (by decide +kernel)

theorem attachments_travel_covered :
    coveredTree.WellFormed coveredText Language.rust.attachmentKinds ∧
      (coveredTree.outline .rust coveredText).top = [] ++ (coveredFunction, .function) :: [] ∧
      (coveredTree.outline .rust coveredText).StandsOver firstAttachment coveredFunction ∧
      ∀ line ∈ (coveredTree.outline .rust coveredText).unitLines {}, ¬ (1 < line ∧ line ≤ 5) := by
  have hformed : coveredTree.WellFormed coveredText Language.rust.attachmentKinds := by decide
  have htop : (coveredTree.outline .rust coveredText).top = [] ++ (coveredFunction, .function) :: [] := by
    rw [outline, symbols_coveredTree]
    decide +kernel
  have hstands : (coveredTree.outline .rust coveredText).StandsOver firstAttachment coveredFunction := by
    rw [outline, symbols_coveredTree]
    constructor <;> decide +kernel
  have hlinked : (coveredTree.outline .rust coveredText).Linked
      ((coveredTree.outline .rust coveredText).leads {} (coveredTree.outline .rust coveredText).freeComments)
      firstAttachment coveredFunction := by
    rw [outline, symbols_coveredTree, Outline.leads, List.mergeSort_of_pairwise (by decide +kernel)]
    constructor <;> decide +kernel
  exact ⟨hformed, htop, hstands, attachments_travel hformed {} htop (fun u hu => by cases hu) hstands hlinked⟩

/-- A function under an attachment of two lines and another that begins on the second. -/
def stackedText : Text :=
  ['#', '[', 'a', '(', '\n', ')', ']', ' ', '#', '[', 'b', ']', '\n', 'f', 'n', ' ', 'f', '(', ')', ' ', '{', '}', '\n']

def stackedTree : SyntaxTree :=
  ⟨.mk "source_file" true ⟨0, 23⟩ {} [.mk "attribute_item" true ⟨0, 7⟩ {} [], .mk "attribute_item" true ⟨8, 12⟩ {} [],
    .mk "function_item" true ⟨13, 22⟩ {} []], false⟩

def stackedFunction : Symbol := ⟨none, .function, 3, 3, ⟨13, 22⟩, 0, none⟩

def tallAttachment : Symbol := ⟨none, .attachment, 1, 2, ⟨0, 7⟩, 0, none⟩

theorem symbols_stackedTree : stackedTree.symbols .rust stackedText =
    [tallAttachment, ⟨none, .attachment, 2, 2, ⟨8, 12⟩, 0, none⟩, stackedFunction] :=
  (symbols_eq_collect (by decide +kernel)).trans (by decide +kernel)

theorem unitLines_stackedTree (docstrings : Bool) :
    (stackedTree.outline .rust stackedText).unitLines { includeDocstrings := docstrings } = [3] := by
  rw [outline, symbols_stackedTree]
  generalize ho : Outline.ofSymbols stackedText _ = o
  have htop : o.top = [(stackedFunction, .function)] := by
    rw [← ho]
    decide +kernel
  have hleads : o.leads { includeDocstrings := docstrings } o.freeComments = o.attachments := by
    have hfree : o.freeComments = [] := by
      rw [← ho]
      decide +kernel
    rw [Outline.leads, hfree, ite_self, List.append_nil]
    refine List.mergeSort_of_pairwise ?_
    rw [← ho]
    decide +kernel
  have hlines : o.topLines { includeDocstrings := docstrings } 0 o.top = [some 3] := by
    rw [htop, Outline.topLines, Outline.topLines, hleads, ← ho]
    decide +kernel
  rw [Outline.unitLines, hlines, ← ho]
  cases docstrings <;> decide +kernel

/-- A function under an attachment with a comment behind it, and a blank line between. -/
def remarkedText : Text :=
  ['#', '[', 'a', ']', ' ', '/', '/', ' ', 'c', '\n', '\n', 'f', 'n', ' ', 'f', '(', ')', ' ', '{', '}', '\n']

def remarkedTree : SyntaxTree :=
  ⟨.mk "source_file" true ⟨0, 21⟩ {} [.mk "attribute_item" true ⟨0, 4⟩ {} [], .mk "line_comment" true ⟨5, 9⟩ {} [],
    .mk "function_item" true ⟨11, 20⟩ {} []], false⟩

def remarkedFunction : Symbol := ⟨none, .function, 3, 3, ⟨11, 20⟩, 0, none⟩

theorem symbols_remarkedTree : remarkedTree.symbols .rust remarkedText =
    [firstAttachment, ⟨none, .comment, 1, 1, ⟨5, 9⟩, 0, none⟩, remarkedFunction] :=
  (symbols_eq_collect (by decide +kernel)).trans (by decide +kernel)

theorem unitLines_remarkedTree :
    (remarkedTree.outline .rust remarkedText).unitLines {} = [1, 3] ∧
      (remarkedTree.outline .rust remarkedText).unitLines { includeDocstrings := false } = [1] := by
  rw [outline, symbols_remarkedTree]
  constructor
  · generalize ho : Outline.ofSymbols remarkedText _ = o
    have htop : o.top = [(remarkedFunction, .function)] := by
      rw [← ho]
      decide +kernel
    have hleads : o.leads {} o.freeComments = o.attachments ++ o.freeComments := by
      refine List.mergeSort_of_pairwise ?_
      rw [← ho]
      decide +kernel
    have hlines : o.topLines {} 0 o.top = [some 3] := by
      rw [htop, Outline.topLines, hleads, ← ho]
      decide +kernel
    rw [Outline.unitLines, hlines, ← ho]
    decide +kernel
  · decide +kernel

/-- An attachment is left behind where another begins on its last line, whether comments are kept or not, and where a
comment stands behind it that is kept and has a blank line below it. -/
theorem attachments_left_behind :
    (stackedTree.WellFormed stackedText Language.rust.attachmentKinds ∧
        (stackedTree.outline .rust stackedText).top = [(stackedFunction, .function)] ∧
        (stackedTree.outline .rust stackedText).StandsOver tallAttachment stackedFunction ∧
        ∀ docstrings, ∃ line ∈ (stackedTree.outline .rust stackedText).unitLines { includeDocstrings := docstrings },
          tallAttachment.lineStart < line ∧ line ≤ stackedFunction.lineStart) ∧
      remarkedTree.WellFormed remarkedText Language.rust.attachmentKinds ∧
        (remarkedTree.outline .rust remarkedText).top = [(remarkedFunction, .function)] ∧
        (remarkedTree.outline .rust remarkedText).StandsOver firstAttachment remarkedFunction ∧
        (∃ line ∈ (remarkedTree.outline .rust remarkedText).unitLines {},
          firstAttachment.lineStart < line ∧ line ≤ remarkedFunction.lineStart) ∧
        (remarkedTree.outline .rust remarkedText).unitLines { includeDocstrings := false } = [1] := by
  refine ⟨⟨by decide, ?_, ?_, fun docstrings => ?_⟩, by decide, ?_, ?_, ?_, unitLines_remarkedTree.2⟩
  · rw [outline, symbols_stackedTree]
    decide +kernel
  · rw [outline, symbols_stackedTree]
    constructor <;> decide +kernel
  · rw [unitLines_stackedTree]
    decide
  · rw [outline, symbols_remarkedTree]
    decide +kernel
  · rw [outline, symbols_remarkedTree]
    constructor <;> decide +kernel
  · rw [unitLines_remarkedTree.1]
    decide

end SyntaxTree
end Chunkwise
