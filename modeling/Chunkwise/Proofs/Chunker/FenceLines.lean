import Chunkwise.Chunker.Fence
import Chunkwise.Proofs.CutPlan.Merge
import Chunkwise.Proofs.Text.Scan

/-!
# Fence lines and the blocks they make

A fence line is told by how it is written: some blanks, equal marks, and what follows them (`Fence.Reads`). These are
the lines that open blocks (`Fence.ofLine?_eq_some_iff`) and close them (`Fence.closes_iff`). A scan of lines with a
fence that stands open goes on to the first line that closes it (`Fence.blocksFrom_opened`), so that the lines are read
block by block (`Fence.Blocked`). What comes of it is described without a scan, by where fence lines are and what closes
them (`Fence.Fenced`), and this describes nothing else (`Fence.fenced_iff`).
-/

namespace Chunkwise
namespace Fence

variable {line first rest s : Text} {fence : Fence} {lines above : List (Nat × Text)} {blocks others : List Span}
variable {size start m n : Nat} {c : Char} {b : Span}

/-! ## Runs of a character -/

theorem runLength_replicate (n : Nat) (h : s.head? ≠ some c) : runLength c (List.replicate n c ++ s) = n := by
  induction n with
  | zero =>
    cases s with
    | nil => rfl
    | cons d s =>
      have hd : d ≠ c := fun heq => h (congrArg some heq)
      simp [runLength, hd]
  | succ n ih =>
    rw [runLength] at ih ⊢
    rw [List.replicate_succ, List.cons_append, List.takeWhile_cons_of_pos (by simp), List.length_cons, ih]

/-- A text begins with a run of a character, and goes on with another one. -/
theorem replicate_runLength (c : Char) (s : Text) :
    List.replicate (runLength c s) c ++ s.drop (runLength c s) = s ∧ (s.drop (runLength c s)).head? ≠ some c := by
  induction s with
  | nil => exact ⟨rfl, by simp⟩
  | cons d s ih =>
    by_cases hd : d = c
    · subst hd
      have hrun : runLength d (d :: s) = runLength d s + 1 := by
        simp [runLength]
      rw [hrun, List.drop_succ_cons, List.replicate_succ, List.cons_append, ih.1]
      exact ⟨rfl, ih.2⟩
    · have hrun : runLength c (d :: s) = 0 := by
        simp [runLength, hd]
      rw [hrun]
      exact ⟨rfl, by simpa using hd⟩

theorem dropIndent_eq_drop (line : Text) : dropIndent line = line.drop (indent line) := by
  induction line with
  | nil => rfl
  | cons c line ih =>
    by_cases hc : c = ' '
    · subst hc
      simpa [dropIndent, indent] using ih
    · simp [dropIndent, indent, hc]

/-! ## Fence lines -/

/-- Whether a line is a fence with something behind it: at most three blanks, then the marks of the fence, three or
more, and no further one. -/
def Reads (line : Text) (fence : Fence) (rest : Text) : Prop :=
  (fence.marker.toNat = 96 ∨ fence.marker = '~') ∧ 3 ≤ fence.run ∧ rest.head? ≠ some fence.marker ∧
    ∃ indent ≤ 3, line = List.replicate indent ' ' ++ (List.replicate fence.run fence.marker ++ rest)

/-- Whether a line is a fence. -/
def IsFenceLine (line : Text) : Prop := ∃ fence rest, Reads line fence rest

/-- Whether a line closes a block that another one opens: it is a fence of the same marks, no fewer of them, with
only blanks behind it. -/
def Closes (first line : Text) : Prop :=
  ∃ opened found rest rest', Reads first opened rest ∧ Reads line found rest' ∧ found.marker = opened.marker ∧
    opened.run ≤ found.run ∧ rest'.isBlank

theorem marker_ne_blank (h : c.toNat = 96 ∨ c = '~') : c ≠ ' ' := by
  rintro rfl
  exact absurd h (by decide)

/-- The fence that is read off a line is the one found, and what follows it is the rest. -/
theorem Reads.ofLine? (h : Reads line fence rest) :
    Fence.ofLine? line = some fence ∧ (dropIndent line).drop fence.run = rest := by
  obtain ⟨hmarker, hrun, hrest, k, hk, rfl⟩ := h
  obtain ⟨r, hr⟩ : ∃ r, fence.run = r + 1 := ⟨fence.run - 1, by omega⟩
  have hmarks : List.replicate fence.run fence.marker ++ rest =
      fence.marker :: (List.replicate r fence.marker ++ rest) := by
    rw [hr, List.replicate_succ, List.cons_append]
  have hhead : (List.replicate fence.run fence.marker ++ rest).head? ≠ some ' ' := by
    rw [hmarks, List.head?_cons]
    exact fun heq => marker_ne_blank hmarker (Option.some.inj heq)
  have hindent : indent (List.replicate k ' ' ++ (List.replicate fence.run fence.marker ++ rest)) = k :=
    runLength_replicate k hhead
  have hdrop : dropIndent (List.replicate k ' ' ++ (List.replicate fence.run fence.marker ++ rest)) =
      List.replicate fence.run fence.marker ++ rest := by
    rw [dropIndent_eq_drop, hindent, List.drop_left' List.length_replicate]
  have hlength := runLength_replicate fence.run hrest
  constructor
  · have hcond : (decide (k ≤ 3) && (fence.marker.toNat == 96 || fence.marker == '~') && decide (3 ≤ fence.run)) =
        true := by
      simp [hk, hmarker, hrun]
    rw [hmarks] at hdrop hlength
    rw [Fence.ofLine?, hmarks, hdrop]
    simp only [hlength]
    rw [← hmarks, hindent, if_pos hcond]
  · rw [hdrop, List.drop_left' List.length_replicate]

/-- **The lines that are fences are those that are written as such.** -/
theorem ofLine?_eq_some_iff : ofLine? line = some fence ↔ ∃ rest, Reads line fence rest := by
  constructor
  · intro h
    rw [ofLine?] at h
    split at h
    · cases h
    · rename_i c rest hdrop
      split at h
      · rename_i hcond
        cases h
        simp only [Bool.and_eq_true, Bool.or_eq_true, beq_iff_eq, decide_eq_true_eq] at hcond
        obtain ⟨⟨hindent, hmarker⟩, hrun⟩ := hcond
        obtain ⟨hmarks, hnext⟩ := replicate_runLength c (c :: rest)
        obtain ⟨hblanks, -⟩ := replicate_runLength ' ' line
        refine ⟨(c :: rest).drop (runLength c (c :: rest)), hmarker, hrun, hnext, indent line, hindent, ?_⟩
        rw [hmarks, ← hdrop, dropIndent_eq_drop]
        exact hblanks.symm
      · cases h
  · rintro ⟨rest, h⟩
    exact h.ofLine?.1

theorem isFenceLine_iff : IsFenceLine line ↔ ∃ fence, ofLine? line = some fence :=
  exists_congr fun _ => ofLine?_eq_some_iff.symm

/-- **What closes a block is a fence like the one that opens it.** -/
theorem closes_iff (h : ofLine? first = some fence) : fence.closes line ↔ Closes first line := by
  constructor
  · intro hcloses
    rw [closes] at hcloses
    split at hcloses
    · cases hcloses
    · rename_i found hfound
      simp only [Bool.and_eq_true, beq_iff_eq, decide_eq_true_eq] at hcloses
      obtain ⟨⟨hmarker, hrun⟩, hblank⟩ := hcloses
      obtain ⟨rest, hreads⟩ := ofLine?_eq_some_iff.1 h
      obtain ⟨rest', hreads'⟩ := ofLine?_eq_some_iff.1 hfound
      rw [hreads'.ofLine?.2] at hblank
      exact ⟨fence, found, rest, rest', hreads, hreads', hmarker, hrun, hblank⟩
  · rintro ⟨opened, found, rest, rest', hreads, hreads', hmarker, hrun, hblank⟩
    obtain rfl : opened = fence := Option.some.inj (hreads.ofLine?.1.symm.trans h)
    rw [closes, hreads'.ofLine?.1]
    simp only [hreads'.ofLine?.2, hmarker, beq_self_eq_true, decide_eq_true hrun, hblank, Bool.and_self]

/-! ## Reading lines block by block -/

/-- The blocks of lines of a text with a size: lines that are no fences are passed over, a fence takes the lines up to
the first one that closes it, and all that are left if none does. -/
inductive Blocked (size : Nat) : List (Nat × Text) → List Span → Prop
  | done : Blocked size [] []
  | skip {l : Nat × Text} {lines : List (Nat × Text)} {blocks : List Span} :
      ¬ IsFenceLine l.2 → Blocked size lines blocks → Blocked size (l :: lines) blocks
  | closed {l last : Nat × Text} {inner lines : List (Nat × Text)} {blocks : List Span} :
      IsFenceLine l.2 → (∀ k ∈ inner, ¬ Closes l.2 k.2) → Closes l.2 last.2 → Blocked size lines blocks →
      Blocked size (l :: (inner ++ last :: lines)) (⟨l.1, last.1 + last.2.byteLen⟩ :: blocks)
  | unclosed {l : Nat × Text} {lines : List (Nat × Text)} :
      IsFenceLine l.2 → (∀ k ∈ lines, ¬ Closes l.2 k.2) → Blocked size (l :: lines) [⟨l.1, size⟩]

theorem blocksFrom_none_cons (size : Nat) (l : Nat × Text) (lines : List (Nat × Text)) :
    blocksFrom size none (l :: lines) =
      match ofLine? l.2 with
      | some fence => blocksFrom size (some (l.1, fence)) lines
      | none => blocksFrom size none lines := rfl

theorem blocksFrom_some_cons (size start : Nat) (fence : Fence) (l : Nat × Text) (lines : List (Nat × Text)) :
    blocksFrom size (some (start, fence)) (l :: lines) =
      if fence.closes l.2 then ⟨start, l.1 + l.2.byteLen⟩ :: blocksFrom size none lines
      else blocksFrom size (some (start, fence)) lines := rfl

/-- With a fence that stands open, a scan goes on to the first line that closes it. -/
theorem blocksFrom_opened (size start : Nat) (h : ofLine? first = some fence) (lines : List (Nat × Text)) :
    (∃ inner last below, lines = inner ++ last :: below ∧ (∀ k ∈ inner, ¬ Closes first k.2) ∧ Closes first last.2 ∧
      blocksFrom size (some (start, fence)) lines =
        ⟨start, last.1 + last.2.byteLen⟩ :: blocksFrom size none below) ∨
    ((∀ k ∈ lines, ¬ Closes first k.2) ∧ blocksFrom size (some (start, fence)) lines = [⟨start, size⟩]) := by
  induction lines with
  | nil =>
    refine Or.inr ⟨fun k hk => ?_, rfl⟩
    cases hk
  | cons l lines ih =>
    rw [blocksFrom_some_cons]
    by_cases hcloses : fence.closes l.2
    · refine Or.inl ⟨[], l, lines, rfl, fun k hk => ?_, (closes_iff h).1 hcloses, if_pos hcloses⟩
      cases hk
    · have hnot : ¬ Closes first l.2 := fun hclose => hcloses ((closes_iff h).2 hclose)
      rw [if_neg hcloses]
      rcases ih with ⟨inner, last, below, rfl, hinner, hlast, hblocks⟩ | ⟨hnone, hblocks⟩
      · exact Or.inl ⟨l :: inner, last, below, rfl, List.forall_mem_cons.2 ⟨hnot, hinner⟩, hlast, hblocks⟩
      · exact Or.inr ⟨List.forall_mem_cons.2 ⟨hnot, hnone⟩, hblocks⟩

/-- A scan reads lines block by block. -/
theorem blocked_blocksFrom (size : Nat) (lines : List (Nat × Text)) :
    Blocked size lines (blocksFrom size none lines) := by
  induction hlength : lines.length using Nat.strongRecOn generalizing lines with
  | ind n ih =>
    cases lines with
    | nil => exact .done
    | cons l lines =>
      rw [List.length_cons] at hlength
      rw [blocksFrom_none_cons]
      cases hfence : ofLine? l.2 with
      | none =>
        refine .skip (fun hline => ?_) (ih lines.length (by omega) lines rfl)
        obtain ⟨fence, hsome⟩ := isFenceLine_iff.1 hline
        rw [hfence] at hsome
        cases hsome
      | some fence =>
        have hline : IsFenceLine l.2 := isFenceLine_iff.2 ⟨fence, hfence⟩
        rcases blocksFrom_opened size l.1 hfence lines with
          ⟨inner, last, below, rfl, hinner, hlast, hblocks⟩ | ⟨hnone, hblocks⟩
        · simp only [hblocks]
          rw [List.length_append, List.length_cons] at hlength
          exact .closed hline hinner hlast (ih below.length (by omega) below rfl)
        · simp only [hblocks]
          exact .unclosed hline hnone

/-! ## The layout of lines -/

/-- Whether lines stand one behind another up to the end of a text, none of them empty. -/
structure Laid (size : Nat) (lines : List (Nat × Text)) : Prop where
  apart : lines.Pairwise fun a b => a.1 + a.2.byteLen ≤ b.1
  nonempty : ∀ l ∈ lines, 0 < l.2.byteLen
  le_size : ∀ l ∈ lines, l.1 + l.2.byteLen ≤ size
  last : ∀ l, lines.getLast? = some l → l.1 + l.2.byteLen = size

theorem Laid.of_append (above : List (Nat × Text)) (h : Laid size (above ++ lines)) : Laid size lines where
  apart := (List.pairwise_append.1 h.apart).2.1
  nonempty := fun l hl => h.nonempty l (List.mem_append_right _ hl)
  le_size := fun l hl => h.le_size l (List.mem_append_right _ hl)
  last := fun l hl => h.last l (by rw [List.getLast?_append, hl, Option.some_or])

theorem Laid.first_le {l k : Nat × Text} (h : Laid size (l :: lines)) (hk : k ∈ l :: lines) : l.1 ≤ k.1 := by
  rcases List.mem_cons.1 hk with rfl | hk
  · exact Nat.le_refl _
  · exact Nat.le_trans (Nat.le_add_right _ _) ((List.pairwise_cons.1 h.apart).1 k hk)

theorem Laid.le_last (above : List (Nat × Text)) {last k : Nat × Text} (h : Laid size (above ++ last :: lines))
    (hk : k ∈ above ++ [last]) : k.1 + k.2.byteLen ≤ last.1 + last.2.byteLen := by
  rcases List.mem_append.1 hk with hk | hk
  · exact Nat.le_trans ((List.pairwise_append.1 h.apart).2.2 k hk last List.mem_cons_self) (Nat.le_add_right _ _)
  · exact Nat.le_of_eq (by rw [List.mem_singleton.1 hk])

/-- The lines of a text are laid out to its end. -/
theorem laid_locatedLines (text : Text) : Laid text.byteLen text.locatedLines where
  apart := Text.pairwise_locate 0 text.pieces
  nonempty := fun l hl => by
    have hpiece : l.2 ∈ text.pieces := by
      rw [← Text.map_snd_locate 0 text.pieces]
      exact List.mem_map_of_mem hl
    exact Text.byteLen_pos (Text.ne_nil_of_mem_pieces hpiece)
  le_size := fun l hl => Text.le_byteLen_of_isBoundary (Text.isBoundary_of_mem_locatedLines hl).2
  last := fun l hl => by
    rw [Text.stop_of_getLast?_locate hl, Text.flatten_pieces, Nat.zero_add]

/-! ## What the blocks of a text are -/

/-- Whether a block that a line begins, with some lines below it, ends at an offset: behind the first of them that
closes it, or at the end of the text if none does. -/
def EndsAt (size : Nat) (first : Text) (below : List (Nat × Text)) (stop : Nat) : Prop :=
  (∃ inner last rest, below = inner ++ last :: rest ∧ (∀ k ∈ inner, ¬ Closes first k.2) ∧ Closes first last.2 ∧
    stop = last.1 + last.2.byteLen) ∨
  ((∀ k ∈ below, ¬ Closes first k.2) ∧ stop = size)

/-- Whether spans are the blocks of lines of a text with a size. -/
structure Fenced (size : Nat) (lines : List (Nat × Text)) (blocks : List Span) : Prop where
  nonempty : ∀ b ∈ blocks, b.start < b.stop
  /-- They are in order and do not overlap. -/
  apart : CutPlan.Apart blocks
  /-- They begin where lines begin and end where lines end. -/
  whole : ∀ b ∈ blocks, (∃ l ∈ lines, b.start = l.1) ∧ ∃ l ∈ lines, b.stop = l.1 + l.2.byteLen
  /-- No fence is outside of them. -/
  covered : ∀ l ∈ lines, IsFenceLine l.2 → ∃ b ∈ blocks, b.encloses ⟨l.1, l.1 + l.2.byteLen⟩
  /-- Each begins with a fence and ends with what closes it; one that nothing closes is the last. -/
  begins : ∀ b ∈ blocks, ∃ above first below, lines = above ++ (b.start, first) :: below ∧ IsFenceLine first ∧
    EndsAt size first below b.stop ∧ ((∀ k ∈ below, ¬ Closes first k.2) → blocks.getLast? = some b)

/-- Lines that are no fences are outside of all blocks. -/
theorem Fenced.skip {l : Nat × Text} (hline : ¬ IsFenceLine l.2) (h : Fenced size lines blocks) :
    Fenced size (l :: lines) blocks where
  nonempty := h.nonempty
  apart := h.apart
  whole := fun b hb => by
    obtain ⟨⟨k, hk, hstart⟩, k', hk', hstop⟩ := h.whole b hb
    exact ⟨⟨k, List.mem_cons_of_mem _ hk, hstart⟩, k', List.mem_cons_of_mem _ hk', hstop⟩
  covered := fun k hk hfence => by
    rcases List.mem_cons.1 hk with rfl | hk
    · exact absurd hfence hline
    · exact h.covered k hk hfence
  begins := fun b hb => by
    obtain ⟨above, first, below, rfl, hb⟩ := h.begins b hb
    exact ⟨l :: above, first, below, rfl, hb⟩

/-- A fence, the first line that closes it and the lines between them are a block above those of the lines below. -/
theorem Fenced.closed {l last : Nat × Text} {inner : List (Nat × Text)}
    (hlaid : Laid size (l :: (inner ++ last :: lines))) (hline : IsFenceLine l.2)
    (hinner : ∀ k ∈ inner, ¬ Closes l.2 k.2) (hlast : Closes l.2 last.2) (h : Fenced size lines blocks) :
    Fenced size (l :: (inner ++ last :: lines)) (⟨l.1, last.1 + last.2.byteLen⟩ :: blocks) := by
  have hmem : last ∈ inner ++ last :: lines := List.mem_append_right _ List.mem_cons_self
  have hlines : ∀ k ∈ lines, k ∈ l :: (inner ++ last :: lines) := fun k hk =>
    List.mem_cons_of_mem _ (List.mem_append_right _ (List.mem_cons_of_mem _ hk))
  have hbelow : ∀ k ∈ lines, last.1 + last.2.byteLen ≤ k.1 :=
    (List.pairwise_cons.1 (Laid.of_append (l :: inner) hlaid).apart).1
  constructor
  case nonempty =>
    have hstart := hlaid.first_le (List.mem_cons_of_mem _ hmem)
    have hpos := hlaid.nonempty last (List.mem_cons_of_mem _ hmem)
    exact List.forall_mem_cons.2 ⟨Nat.lt_of_le_of_lt hstart (Nat.lt_add_of_pos_right hpos), h.nonempty⟩
  case apart =>
    refine List.pairwise_cons.2 ⟨fun b hb => ?_, h.apart⟩
    obtain ⟨⟨k, hk, hstart⟩, -⟩ := h.whole b hb
    rw [hstart]
    exact hbelow k hk
  case whole =>
    refine List.forall_mem_cons.2 ⟨⟨⟨l, List.mem_cons_self, rfl⟩, last, List.mem_cons_of_mem _ hmem, rfl⟩, ?_⟩
    intro b hb
    obtain ⟨⟨k, hk, hstart⟩, k', hk', hstop⟩ := h.whole b hb
    exact ⟨⟨k, hlines k hk, hstart⟩, k', hlines k' hk', hstop⟩
  case covered =>
    intro k hk hfence
    have hparts : k ∈ l :: inner ++ [last] ∨ k ∈ lines := by
      rw [← List.mem_append]
      simpa using hk
    rcases hparts with hown | hrest
    · have hstop := Laid.le_last (l :: inner) hlaid hown
      exact ⟨_, List.mem_cons_self, Span.encloses_iff.2 ⟨hlaid.first_le hk, hstop⟩⟩
    · obtain ⟨b, hb, hencloses⟩ := h.covered k hrest hfence
      exact ⟨b, List.mem_cons_of_mem _ hb, hencloses⟩
  case begins =>
    refine List.forall_mem_cons.2 ⟨?_, fun b hb => ?_⟩
    · refine ⟨[], l.2, inner ++ last :: lines, rfl, hline, Or.inl ⟨inner, last, lines, rfl, hinner, hlast, rfl⟩, ?_⟩
      intro hnone
      exact absurd hlast (hnone last hmem)
    · obtain ⟨above, first, below, rfl, hfence, hends, hopen⟩ := h.begins b hb
      refine ⟨l :: (inner ++ last :: above), first, below, by simp, hfence, hends, fun hnone => ?_⟩
      rw [List.getLast?_cons, hopen hnone]
      rfl

/-- A fence that nothing closes is the only block, up to the end of the text. -/
theorem Fenced.unclosed {l : Nat × Text} (hlaid : Laid size (l :: lines)) (hline : IsFenceLine l.2)
    (hnone : ∀ k ∈ lines, ¬ Closes l.2 k.2) : Fenced size (l :: lines) [⟨l.1, size⟩] := by
  constructor
  case nonempty =>
    have hpos := hlaid.nonempty l List.mem_cons_self
    have hle := hlaid.le_size l List.mem_cons_self
    exact List.forall_mem_singleton.2 (Nat.lt_of_lt_of_le (Nat.lt_add_of_pos_right hpos) hle)
  case apart => exact List.pairwise_singleton _ _
  case whole =>
    refine List.forall_mem_singleton.2 ⟨⟨l, List.mem_cons_self, rfl⟩, ?_⟩
    have hsome : (l :: lines).getLast? = some ((l :: lines).getLast (List.cons_ne_nil _ _)) :=
      List.getLast?_eq_some_getLast _
    exact ⟨_, List.mem_of_getLast? hsome, (hlaid.last _ hsome).symm⟩
  case covered =>
    intro k hk _
    exact ⟨_, List.mem_singleton_self _, Span.encloses_iff.2 ⟨hlaid.first_le hk, hlaid.le_size k hk⟩⟩
  case begins =>
    exact List.forall_mem_singleton.2 ⟨[], l.2, lines, rfl, hline, Or.inr ⟨hnone, rfl⟩, fun _ => rfl⟩

/-- Reading lines block by block gives their blocks. -/
theorem Blocked.fenced (h : Blocked size lines blocks) (hlaid : Laid size lines) : Fenced size lines blocks := by
  induction h with
  | done =>
    constructor
    case apart => exact List.Pairwise.nil
    all_goals
      intro x hx
      cases hx
  | @skip l lines blocks hline _ ih => exact (ih (Laid.of_append [l] hlaid)).skip hline
  | @closed l last inner lines blocks hline hinner hlast _ ih =>
    have hlines : l :: (inner ++ last :: lines) = (l :: (inner ++ [last])) ++ lines := by simp
    rw [hlines] at hlaid
    have hrest := ih (Laid.of_append _ hlaid)
    rw [← hlines] at hlaid
    exact hrest.closed hlaid hline hinner hlast
  | unclosed hline hnone => exact Fenced.unclosed hlaid hline hnone

theorem fenced_blocks (text : Text) : Fenced text.byteLen text.locatedLines (Fence.blocks text) :=
  (blocked_blocksFrom text.byteLen text.locatedLines).fenced (laid_locatedLines text)

/-- A block holds the fence that it begins with. -/
theorem Fenced.exists_first (hlaid : Laid size lines) (h : Fenced size lines blocks) (hb : b ∈ blocks) :
    ∃ first, (b.start, first) ∈ lines ∧ IsFenceLine first ∧ b.start + first.byteLen ≤ b.stop := by
  obtain ⟨above, first, below, hlines, hfence, hends, -⟩ := h.begins b hb
  have hmem : (b.start, first) ∈ lines := by
    rw [hlines]
    exact List.mem_append_right _ List.mem_cons_self
  refine ⟨first, hmem, hfence, ?_⟩
  rcases hends with ⟨inner, last, rest, rfl, -, -, hstop⟩ | ⟨-, hstop⟩
  · rw [hlines] at hlaid
    have hbelow := (List.pairwise_append.1 hlaid.apart).2.1
    have hle := (List.pairwise_cons.1 hbelow).1 last (List.mem_append_right _ List.mem_cons_self)
    rw [hstop]
    exact Nat.le_trans hle (Nat.le_add_right _ _)
  · rw [hstop]
    exact hlaid.le_size _ hmem

/-! ## That nothing else is described -/

/-- What is behind the first member with a property is known by the property. -/
theorem split_unique {α : Type} {p : α → Prop} {before before' after after' : List α} {x x' : α}
    (h : before ++ x :: after = before' ++ x' :: after') (hbefore : ∀ y ∈ before, ¬ p y) (hx : p x)
    (hbefore' : ∀ y ∈ before', ¬ p y) (hx' : p x') : x = x' ∧ after = after' := by
  induction before generalizing before' with
  | nil =>
    cases before' with
    | nil => exact List.cons.inj h
    | cons y before' =>
      obtain ⟨rfl, -⟩ := List.cons.inj h
      exact absurd hx (hbefore' x List.mem_cons_self)
  | cons y before ih =>
    cases before' with
    | nil =>
      obtain ⟨rfl, -⟩ := List.cons.inj h
      exact absurd hx' (hbefore y List.mem_cons_self)
    | cons y' before' =>
      exact ih (List.cons.inj h).2 (fun z hz => hbefore z (List.mem_cons_of_mem _ hz))
        (fun z hz => hbefore' z (List.mem_cons_of_mem _ hz))

/-- The lines below one are known by where it starts. -/
theorem Laid.below_unique {above' below below' : List (Nat × Text)} {first first' : Text} (hlaid : Laid size lines)
    (h : lines = above ++ (start, first) :: below) (h' : lines = above' ++ (start, first') :: below') :
    first = first' ∧ below = below' := by
  have habove : ∀ {above below : List (Nat × Text)} {first : Text}, lines = above ++ (start, first) :: below →
      ∀ k ∈ above, k.1 ≠ start := by
    rintro above below first rfl k hk heq
    have hle := (List.pairwise_append.1 hlaid.apart).2.2 k hk (start, first) List.mem_cons_self
    have hpos := hlaid.nonempty k (List.mem_append_left _ hk)
    simp only at hle
    omega
  have hsplit := split_unique (p := fun k => k.1 = start) (h.symm.trans h') (habove h) rfl (habove h') rfl
  exact ⟨(Prod.mk.inj hsplit.1).2, hsplit.2⟩

theorem EndsAt.unique {below : List (Nat × Text)} (h : EndsAt size first below m) (h' : EndsAt size first below n) :
    m = n := by
  rcases h with ⟨inner, last, rest, rfl, hinner, hlast, rfl⟩ | ⟨hnone, rfl⟩
  · rcases h' with ⟨inner', last', rest', heq, hinner', hlast', rfl⟩ | ⟨hnone, -⟩
    · have hsplit := split_unique (p := fun k => Closes first k.2) heq hinner hlast hinner' hlast'
      rw [hsplit.1]
    · exact absurd hlast (hnone last (List.mem_append_right _ List.mem_cons_self))
  · rcases h' with ⟨inner', last', rest', rfl, -, hlast', -⟩ | ⟨-, rfl⟩
    · exact absurd hlast' (hnone last' (List.mem_append_right _ List.mem_cons_self))
    · rfl

/-- A block of one description is one of any other. -/
theorem Fenced.mem (hlaid : Laid size lines) (h : Fenced size lines blocks) (h' : Fenced size lines others)
    (hb : b ∈ blocks) : b ∈ others := by
  -- The first line of a block lies in a block of the other description. If this began above, it would by induction be
  -- one of the first description as well, and overlap there.
  induction hstart : b.start using Nat.strongRecOn generalizing b blocks others with
  | ind n ih =>
    obtain ⟨above, first, below, hlines, hfence, hends, -⟩ := h.begins b hb
    have hmem : (b.start, first) ∈ lines := by
      rw [hlines]
      exact List.mem_append_right _ List.mem_cons_self
    obtain ⟨b', hb', hencloses⟩ := h'.covered _ hmem hfence
    rw [Span.encloses_iff] at hencloses
    simp only at hencloses
    rcases Nat.lt_or_eq_of_le hencloses.1 with hlt | heq
    · have hback := ih b'.start (by omega) h' h hb' rfl
      have hpos := hlaid.nonempty _ hmem
      have hne := h.nonempty b hb
      simp only at hpos
      rcases h.apart.eq_or_before hb hback with heq | hle | hle
      · rw [heq] at hlt
        exact absurd hlt (Nat.lt_irrefl _)
      · omega
      · omega
    · obtain ⟨above', first', below', hlines', -, hends', -⟩ := h'.begins b' hb'
      rw [heq] at hlines'
      obtain ⟨rfl, rfl⟩ := hlaid.below_unique hlines hlines'
      have hsame : b' = b := congr (congrArg Span.mk heq) (hends'.unique hends)
      rw [← hsame]
      exact hb'

theorem Fenced.pairwise_start (h : Fenced size lines blocks) : blocks.Pairwise fun a b => a.start < b.start :=
  h.apart.imp_of_mem fun {a _} ha _ hle => Nat.lt_of_lt_of_le (h.nonempty a ha) hle

/-- Lines have one description by blocks. -/
theorem Fenced.unique (hlaid : Laid size lines) (h : Fenced size lines blocks) (h' : Fenced size lines others) :
    blocks = others := by
  have hnodup : ∀ {spans : List Span}, Fenced size lines spans → spans.Nodup := by
    intro spans hspans
    refine hspans.pairwise_start.imp fun {a b} hlt heq => ?_
    rw [heq] at hlt
    exact Nat.lt_irrefl _ hlt
  have hperm : blocks.Perm others := (List.perm_ext_iff_of_nodup (hnodup h) (hnodup h')).2 fun b =>
    ⟨fun hb => h.mem hlaid h' hb, fun hb => h'.mem hlaid h hb⟩
  exact hperm.eq_of_pairwise (fun a b _ _ hab hba => absurd hba (Nat.lt_asymm hab)) h.pairwise_start h'.pairwise_start

/-- **The blocks of a text are the ones that its fence lines make.** They are in order and apart, each of whole lines
and with a fence as its first line; each ends behind the first line below that closes it, or with the text if there is
none, and is the last one then; every fence line is in one of them. No other spans are like this. -/
theorem fenced_iff (text : Text) (spans : List Span) :
    Fenced text.byteLen text.locatedLines spans ↔ spans = Fence.blocks text := by
  constructor
  · intro h
    exact h.unique (laid_locatedLines text) (fenced_blocks text)
  · rintro rfl
    exact fenced_blocks text

end Fence
end Chunkwise
