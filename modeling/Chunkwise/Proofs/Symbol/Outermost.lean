import Chunkwise.Proofs.Tree.Order

/-!
# Outermost symbols

One pass over symbols in reading order picks those that begin no earlier than the last one picked has ended. What it
picks does not overlap (`pairwise_outermostFrom`), and comes in reading order (`before_of_mem_outermostFrom`). If no
symbol is empty and no two of them cross, the end of the last one picked tells whether any earlier symbol encloses the
next (`Upto.any_encloses_iff`). The pass then picks the symbols that no earlier one encloses (`outermostFrom_eq`), and
each symbol is in exactly one of them (`outermost_are_maximal`).
-/

namespace Chunkwise

namespace Symbol

variable {symbols earlier rest : List Symbol} {covered : Nat} {s t : Symbol}

/-! ## What the pass picks -/

theorem le_start_of_mem_outermostFrom (hle : ∀ s ∈ symbols, s.span.start ≤ s.span.stop)
    (h : s ∈ outermostFrom covered symbols) : covered ≤ s.span.start := by
  induction symbols generalizing covered with
  | nil => cases h
  | cons a rest ih =>
    have hrest := fun s hs => hle s (List.mem_cons_of_mem a hs)
    rw [outermostFrom] at h
    split at h
    · rename_i hcovered
      rcases List.mem_cons.1 h with rfl | h
      · exact hcovered
      · exact Nat.le_trans hcovered (Nat.le_trans (hle a List.mem_cons_self) (ih hrest h))
    · exact ih hrest h

/-- Outermost symbols do not overlap. -/
theorem pairwise_outermostFrom (hle : ∀ s ∈ symbols, s.span.start ≤ s.span.stop) :
    (outermostFrom covered symbols).Pairwise fun a b => a.span.stop ≤ b.span.start := by
  induction symbols generalizing covered with
  | nil => exact List.Pairwise.nil
  | cons a rest ih =>
    have hrest := fun s hs => hle s (List.mem_cons_of_mem a hs)
    rw [outermostFrom]
    split
    · exact List.pairwise_cons.2 ⟨fun b hb => le_start_of_mem_outermostFrom hrest hb, ih hrest⟩
    · exact ih hrest

/-- What comes before an outermost symbol in reading order ends before it begins, or begins before it. -/
theorem before_of_mem_outermostFrom (hle : ∀ s ∈ symbols, s.span.start ≤ s.span.stop)
    (hsorted : symbols.Pairwise fun a b => a.le b) (hs : s ∈ outermostFrom covered symbols) (ht : t ∈ symbols)
    (hbefore : ¬ s.le t) : t.span.stop ≤ s.span.start ∨ t.span.start < s.span.start := by
  induction symbols generalizing covered with
  | nil => cases ht
  | cons a rest ih =>
    have hrest := fun s hs => hle s (List.mem_cons_of_mem a hs)
    obtain ⟨hafter, hsorted⟩ := List.pairwise_cons.1 hsorted
    rw [outermostFrom] at hs
    split at hs
    · rcases List.mem_cons.1 hs with rfl | hs
      · rcases List.mem_cons.1 ht with rfl | ht
        · exact absurd (le_refl t) hbefore
        · exact absurd (hafter t ht) hbefore
      · rcases List.mem_cons.1 ht with rfl | ht
        · exact Or.inl (le_start_of_mem_outermostFrom hrest hs)
        · exact ih hrest hsorted hs ht
    · rename_i hcovered
      rcases List.mem_cons.1 ht with rfl | ht
      · have hstart := le_start_of_mem_outermostFrom hrest hs
        omega
      · exact ih hrest hsorted hs ht

/-! ## Symbols that no earlier one encloses -/

/-- The symbols of a list that no earlier one of it encloses, in the order of the list. -/
def unenclosed (symbols : List Symbol) : List Symbol :=
  (symbols.zipIdx.filter fun entry => !(symbols.take entry.2).any (·.encloses entry.1)).map (·.1)

theorem encloses_iff : s.encloses t ↔ s.span.start ≤ t.span.start ∧ t.span.stop ≤ s.span.stop := Span.encloses_iff

/-- Behind symbols that do not enclose it a symbol is unenclosed. -/
theorem mem_unenclosed_of_append (h : symbols = earlier ++ s :: rest) (hfree : ∀ t ∈ earlier, ¬ t.encloses s) :
    s ∈ unenclosed symbols := by
  have hentry : (s, earlier.length) ∈ symbols.zipIdx := by
    rw [List.mem_zipIdx_iff_getElem?, h, List.getElem?_append_right (Nat.le_refl _), Nat.sub_self,
      List.getElem?_cons_zero]
  have htake : symbols.take earlier.length = earlier := by rw [h, List.take_left]
  refine List.mem_map.2 ⟨(s, earlier.length), List.mem_filter.2 ⟨hentry, ?_⟩, rfl⟩
  simp only [htake, Bool.not_eq_true', List.any_eq_false]
  exact hfree

/-- Every symbol is in one that no earlier one encloses: the first that it is in. -/
theorem exists_unenclosed_encloses (hs : s ∈ symbols) : ∃ t ∈ unenclosed symbols, t.encloses s := by
  have hself : s.encloses s := encloses_iff.2 ⟨Nat.le_refl _, Nat.le_refl _⟩
  have hsome : (symbols.find? (·.encloses s)).isSome := List.find?_isSome.2 ⟨s, hs, hself⟩
  obtain ⟨t, hfind⟩ := Option.isSome_iff_exists.1 hsome
  obtain ⟨ht, earlier, rest, hsplit, hfree⟩ := List.find?_eq_some_iff_append.1 hfind
  refine ⟨t, mem_unenclosed_of_append hsplit fun a ha hat => ?_, ht⟩
  have hfirst := hfree a ha
  rw [Bool.not_eq_true', Bool.eq_false_iff] at hfirst
  rw [encloses_iff] at hat ht
  exact hfirst (encloses_iff.2 ⟨Nat.le_trans hat.1 ht.1, Nat.le_trans ht.2 hat.2⟩)

/-! ## One end stands for all earlier symbols -/

/-- Whether some symbols reach up to a position: none of them ends behind it, and one of them ends there unless it is
the start of the text. -/
structure Upto (earlier : List Symbol) (covered : Nat) : Prop where
  stop_le : ∀ t ∈ earlier, t.span.stop ≤ covered
  reached : covered = 0 ∨ ∃ t ∈ earlier, t.span.stop = covered

theorem upto_nil : Upto [] 0 := ⟨fun _ h => absurd h List.not_mem_nil, Or.inl rfl⟩

/-- **The end of what earlier symbols reach tells whether one of them encloses the next.** -/
theorem Upto.any_encloses_iff (h : Upto earlier covered) (hne : s.span.start < s.span.stop)
    (hnested : ∀ t ∈ earlier, t.span.Nested s.span) (hsorted : ∀ t ∈ earlier, t.le s) :
    earlier.any (·.encloses s) ↔ s.span.start < covered := by
  rw [List.any_eq_true]
  constructor
  · rintro ⟨t, ht, hencloses⟩
    have hstop := h.stop_le t ht
    rw [encloses_iff] at hencloses
    omega
  · intro hlt
    obtain hzero | ⟨t, ht, rfl⟩ := h.reached
    · omega
    · -- The symbol begins inside the one that ends last. It reads later, so it does not enclose that one in turn.
      refine ⟨t, ht, encloses_iff.2 ?_⟩
      have hle := le_iff.1 (hsorted t ht)
      rcases hnested t ht with hin | hout | hapart | hapart
      · exact Span.encloses_iff.1 hin
      · rw [Span.encloses_iff] at hout
        omega
      · omega
      · omega

theorem Upto.append_picked (h : Upto earlier covered) (hne : s.span.start < s.span.stop)
    (hle : covered ≤ s.span.start) : Upto (earlier ++ [s]) s.span.stop where
  stop_le := by
    intro t ht
    rcases List.mem_append.1 ht with ht | ht
    · have hstop := h.stop_le t ht
      omega
    · obtain rfl := List.mem_singleton.1 ht
      exact Nat.le_refl _
  reached := Or.inr ⟨s, List.mem_append_right _ List.mem_cons_self, rfl⟩

theorem Upto.append_enclosed (h : Upto earlier covered) (hencloses : earlier.any (·.encloses s)) :
    Upto (earlier ++ [s]) covered where
  stop_le := by
    intro t ht
    rcases List.mem_append.1 ht with ht | ht
    · exact h.stop_le t ht
    · obtain ⟨outer, houter, hin⟩ := List.any_eq_true.1 hencloses
      rw [List.mem_singleton.1 ht]
      exact Nat.le_trans (encloses_iff.1 hin).2 (h.stop_le outer houter)
  reached := h.reached.imp_right fun ⟨t, ht, hstop⟩ => ⟨t, List.mem_append_left _ ht, hstop⟩

/-- From a position up to which the earlier symbols reach, the pass picks those that no earlier one encloses. -/
theorem outermostFrom_eq (h : Upto earlier covered) (hne : ∀ s ∈ rest, s.span.start < s.span.stop)
    (hnested : (earlier ++ rest).Pairwise fun a b => a.span.Nested b.span)
    (hsorted : (earlier ++ rest).Pairwise fun a b => a.le b) :
    outermostFrom covered rest = ((rest.zipIdx earlier.length).filter fun entry =>
      !((earlier ++ rest).take entry.2).any (·.encloses entry.1)).map (·.1) := by
  induction rest generalizing earlier covered with
  | nil => rfl
  | cons s rest ih =>
    obtain ⟨hs, hne⟩ := List.forall_mem_cons.1 hne
    have hencloses := h.any_encloses_iff hs
      (fun t ht => (List.pairwise_append.1 hnested).2.2 t ht s List.mem_cons_self)
      (fun t ht => (List.pairwise_append.1 hsorted).2.2 t ht s List.mem_cons_self)
    rw [List.append_cons] at hnested hsorted
    rw [outermostFrom, List.zipIdx_cons, List.filter_cons, List.take_left, List.append_cons]
    by_cases hcovered : covered ≤ s.span.start
    · have hfree : earlier.any (·.encloses s) = false := by
        rw [Bool.eq_false_iff, ne_eq, hencloses]
        omega
      have hrest := ih (h.append_picked hs hcovered) hne hnested hsorted
      rw [List.length_append] at hrest
      rw [if_pos hcovered, hfree, Bool.not_false, if_pos rfl, List.map_cons, hrest]
      rfl
    · have hin : earlier.any (·.encloses s) := hencloses.2 (Nat.lt_of_not_le hcovered)
      have hrest := ih (h.append_enclosed hin) hne hnested hsorted
      rw [List.length_append] at hrest
      rw [if_neg hcovered, hin, Bool.not_true, if_neg Bool.false_ne_true, hrest]
      rfl

/-- Where no two members of a list pass a test and one does, one passes. -/
theorem countP_eq_one_of_pairwise {α : Type} {p : α → Bool} {l : List α} (h : l.Pairwise fun a b => ¬ (p a ∧ p b))
    (hex : ∃ a ∈ l, p a) : l.countP p = 1 := by
  induction l with
  | nil =>
    obtain ⟨a, ha, -⟩ := hex
    cases ha
  | cons a l ih =>
    obtain ⟨hfirst, h⟩ := List.pairwise_cons.1 h
    by_cases hp : p a
    · have hnone : l.countP p = 0 := List.countP_eq_zero.2 fun b hb hpb => hfirst b hb ⟨hp, hpb⟩
      rw [List.countP_cons_of_pos hp, hnone]
    · rw [List.countP_cons_of_neg hp]
      obtain ⟨b, hb, hpb⟩ := hex
      rcases List.mem_cons.1 hb with rfl | hb
      · exact absurd hpb hp
      · exact ih h ⟨b, hb, hpb⟩

/-- **Outermost symbols are the maximal ones.** Of symbols in reading order that are not empty and do not cross, the
pass picks in order those that no earlier one encloses; these are apart, and each symbol is in exactly one of them. -/
theorem outermost_are_maximal (hne : ∀ s ∈ symbols, s.span.start < s.span.stop)
    (hnested : symbols.Pairwise fun a b => a.span.Nested b.span) (hsorted : symbols.Pairwise fun a b => a.le b) :
    outermost symbols = unenclosed symbols ∧
      (outermost symbols).Pairwise (fun a b => a.span.stop ≤ b.span.start) ∧
      ∀ s ∈ symbols, (outermost symbols).countP (·.encloses s) = 1 := by
  have hpicked : outermost symbols = unenclosed symbols := outermostFrom_eq upto_nil hne hnested hsorted
  have hapart : (outermost symbols).Pairwise fun a b => a.span.stop ≤ b.span.start :=
    pairwise_outermostFrom fun s hs => Nat.le_of_lt (hne s hs)
  refine ⟨hpicked, hapart, fun s hs => countP_eq_one_of_pairwise (hapart.imp fun {a b} hab hboth => ?_) ?_⟩
  · have hs := hne s hs
    rw [encloses_iff, encloses_iff] at hboth
    omega
  · rw [hpicked]
    exact exists_unenclosed_encloses hs

/-- A symbol with nothing but a span and a depth. -/
def plainSymbol (depth start stop : Nat) : Symbol := ⟨none, .function, 1, 1, ⟨start, stop⟩, depth, none⟩

/-- A symbol, another one with its span, one inside both, one right behind them and one inside that. -/
def nestedSymbols : List Symbol :=
  [plainSymbol 0 0 50, plainSymbol 1 0 50, plainSymbol 2 10 20, plainSymbol 0 50 60, plainSymbol 1 55 58]

theorem outermost_are_maximal_nested :
    (∀ s ∈ nestedSymbols, s.span.start < s.span.stop) ∧
      (nestedSymbols.Pairwise fun a b => a.span.Nested b.span) ∧ (nestedSymbols.Pairwise fun a b => a.le b) ∧
      outermost nestedSymbols = [plainSymbol 0 0 50, plainSymbol 0 50 60] ∧
      unenclosed nestedSymbols = [plainSymbol 0 0 50, plainSymbol 0 50 60] ∧
      plainSymbol 2 10 20 ∈ nestedSymbols ∧
      (outermost nestedSymbols).countP (·.encloses (plainSymbol 2 10 20)) = 1 := by
  have hne : ∀ s ∈ nestedSymbols, s.span.start < s.span.stop := by decide
  have hnested : nestedSymbols.Pairwise fun a b => a.span.Nested b.span := by
    simp [nestedSymbols, plainSymbol, Span.Nested, Span.encloses]
  have hsorted : nestedSymbols.Pairwise fun a b => a.le b := by decide
  have hpicked : outermost nestedSymbols = [plainSymbol 0 0 50, plainSymbol 0 50 60] := by decide
  have hmem : plainSymbol 2 10 20 ∈ nestedSymbols := by decide
  obtain ⟨hmaximal, -, hone⟩ := outermost_are_maximal hne hnested hsorted
  exact ⟨hne, hnested, hsorted, hpicked, hmaximal.symm.trans hpicked, hmem, hone _ hmem⟩

end Symbol
end Chunkwise
