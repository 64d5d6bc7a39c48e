import Chunkwise.Proofs.Window.Run

/-!
# Finer levels only where no coarser one will do

Take the start of the text and the cuts of the levels up to the `k`-th. If what stands between two neighbours among
these fits the budget, no window ends between them, whatever the overlap (`cuts_keep_neighbours_whole`). The text is
then covered either up to the first of the two or not beyond it, and from there one of the two is in reach, so that
the next window ends at a level not finer than `k` (`Step.not_between`).
-/

namespace Chunkwise
namespace CutTable

variable {table : CutTable} {text : Text} {budget : Budget} {i j i' j' k a b pos covered reach : Nat}

/-- The start of the text, or a cut of one of the levels up to the `k`-th. -/
def MarkedUpTo (table : CutTable) (k pos : Nat) : Prop :=
  pos = 0 ∨ ∃ n ≤ k, ∃ level, table.levels[n]? = some level ∧ pos ∈ level

/-- Two successive positions among the start of the text and the cuts of the levels up to the `k`-th. -/
structure Neighbours (table : CutTable) (k u v : Nat) : Prop where
  left : table.MarkedUpTo k u
  right : table.MarkedUpTo k v
  lt : u < v
  between : ∀ pos, table.MarkedUpTo k pos → u < pos → v ≤ pos

theorem MarkedUpTo.isBoundary (h : table.MarkedUpTo k pos) (hf : table.Fits text) : text.isBoundary pos := by
  rcases h with rfl | ⟨n, -, level, hlevel, hpos⟩
  · exact Text.isBoundary_zero text
  · exact hf.positions level (List.mem_of_getElem? hlevel) pos hpos

theorem MarkedUpTo.exists_level (h : table.MarkedUpTo k pos) (hlt : covered < pos) :
    ∃ n ≤ k, ∃ level, table.levels[n]? = some level ∧ pos ∈ level := by
  rcases h with rfl | h
  · exact absurd hlt (Nat.not_lt_zero _)
  · exact h

theorem Bare.not_marked (hbare : table.Bare covered reach) (h : table.MarkedUpTo k pos) (hlt : covered < pos) :
    reach < pos := by
  obtain ⟨n, -, level, hlevel, hpos⟩ := h.exists_level hlt
  exact reach_lt_of_ahead_eq_nil (hbare level (List.mem_of_getElem? hlevel)) hpos hlt

/-- The coarsest level in reach is not finer than that of a marked position in reach. -/
theorem CoarsestAt.le_of_marked {n : Nat} {level : List Nat} (hc : table.CoarsestAt covered reach n level)
    (h : table.MarkedUpTo k pos) (hlt : covered < pos) (hle : pos ≤ reach) : n ≤ k := by
  obtain ⟨m, hmk, l, hl, hpos⟩ := h.exists_level hlt
  rcases Nat.lt_or_ge m n with hmn | hmn
  · have hmem : l ∈ table.levels.take n :=
      List.mem_of_getElem? (i := m) (by rw [List.getElem?_take_of_lt hmn]; exact hl)
    have hreach := reach_lt_of_ahead_eq_nil (hc.above l hmem) hpos hlt
    omega
  · omega

/-- A step at the coarsest level does not end between neighbours one of which is in reach. -/
theorem CoarsestAt.not_between {n : Nat} {level : List Nat} (hc : table.CoarsestAt covered reach n level)
    (hn : table.Neighbours k a b) (hpos : pos ∈ level) (h : a < pos ∧ pos < b)
    (hreach : ∃ m, table.MarkedUpTo k m ∧ covered < m ∧ m ≤ reach) : False := by
  obtain ⟨m, hm, hlt, hle⟩ := hreach
  have hnk := hc.le_of_marked hm hlt hle
  have := hn.between pos (Or.inr ⟨n, hnk, level, hc.level_eq, hpos⟩) h.1
  omega

/-- No step from outside neighbours that fit the budget ends between them. -/
theorem Step.not_between (h : Step table text budget i j i' j') (hf : table.Fits text)
    (hr : Ready table text budget i j) (hj : j < text.length) (ha : a ≤ text.length) (hb : b ≤ text.length)
    (hn : table.Neighbours k (text.offset a) (text.offset b)) (hfit : b ≤ a + budget.maxChars)
    (hout : ¬ (a < j ∧ j < b)) : ¬ (a < j' ∧ j' < b) := by
  rintro ⟨haj', hj'b⟩
  obtain ⟨hi', hi'j, hlt, hle⟩ := h.bounds hr hj
  have hij := hr.start_le
  have hja : j ≤ a := by omega
  have hoff : text.offset a < text.offset j' ∧ text.offset j' < text.offset b :=
    ⟨Text.offset_lt_offset haj' hle, Text.offset_lt_offset hj'b hb⟩
  -- One of the neighbours is in reach as soon as the step does not end behind the reach.
  have hreach : j' ≤ j + budget.maxChars → ∃ m, table.MarkedUpTo k m ∧ text.offset j < m ∧
      m ≤ text.offset (j + budget.maxChars) := by
    intro hj'
    rcases Nat.lt_or_eq_of_le hja with hja | rfl
    · exact ⟨_, hn.left, Text.offset_lt_offset hja ha, Text.offset_le_offset text (by omega)⟩
    · exact ⟨_, hn.right, hn.lt, Text.offset_le_offset text hfit⟩
  cases h with
  | unit hc hmem _ _ hfits => exact hc.not_between hn hmem hoff (hreach (by omega))
  | shortened hc hmem _ _ hnear => exact hc.not_between hn hmem hoff (hreach hnear)
  | @solid span stop hbare hspan hstart _ _ hstop =>
    rcases Nat.lt_or_eq_of_le hja with hja | rfl
    · -- The first neighbour would be a cut inside the span.
      have hlt' : text.offset j < text.offset a := Text.offset_lt_offset hja ha
      obtain ⟨n, -, level, hlevel, hmem⟩ := hn.left.exists_level hlt'
      refine hf.clear level (List.mem_of_getElem? hlevel) _ hmem (CutPlan.inside_iff.2 ⟨span, hspan, ?_, ?_⟩) <;> omega
    · have hgt := (Text.offset_lt_iff hb).1 (hbare.not_marked hn.right hn.lt)
      omega
  | plain hbare =>
    obtain ⟨m, hm, hjm, hmle⟩ := hreach (by omega)
    have := hbare.not_marked hm hjm
    omega

/-- **What fits the budget between neighbours of the levels up to the `k`-th is never cut.** -/
theorem cuts_keep_neighbours_whole {plan : CutPlan} (h : plan.Built text) (budget : Budget) :
    ∃ spans, (plan.table text.byteLen).cuts text budget = some spans ∧
      (plan.table text.byteLen).windows text budget = some (spans.filterMap (windowOf? text budget)) ∧
      ∀ k u v, (plan.table text.byteLen).Neighbours k u v → text.charsIn ⟨u, v⟩ ≤ budget.maxChars →
        ∀ span ∈ spans, ¬ (u < span.stop ∧ span.stop < v) := by
  have hf := h.fits
  obtain ⟨spans, hcuts, hrun, hwindows⟩ := hf.exists_cuts budget
  refine ⟨spans, hcuts, hwindows, ?_⟩
  intro k u v hn hfit span hspan
  obtain ⟨a, ha, rfl⟩ := Text.isBoundary_iff.1 (hn.left.isBoundary hf)
  obtain ⟨b, hb, rfl⟩ := Text.isBoundary_iff.1 (hn.right.isBoundary hf)
  rw [Text.charsIn_offset ha hb] at hfit
  obtain ⟨n, hnle, hstop, hout⟩ := hrun.invariant (P := fun n => ¬ (a < n ∧ n < b)) (by omega)
    (fun i j i' j' hr hj hstep hout => hstep.not_between hf hr hj ha hb hn (by omega) hout) hspan
  rw [hstop, Text.offset_lt_iff hnle, Text.offset_lt_iff hb]
  exact hout

/-- A text of two units, each of them two words. -/
def unitsText : Text := ['a', 'a', ' ', 'b', 'b', '\n', 'c', 'c', ' ', 'd', 'd', '\n']

def unitsPlan : CutPlan := (CutPlan.markAll {} 0 [6]).markAll 1 [3, 9]

def unitsBudget : Budget := ⟨6, 2, by decide⟩

/-- The second unit fits the budget and is not cut behind its first word, though no room is left for the overlap. -/
theorem cuts_keep_units_whole :
    (unitsPlan.Built unitsText ∧ (unitsPlan.table unitsText.byteLen).Neighbours 0 6 12 ∧
        unitsText.charsIn ⟨6, 12⟩ ≤ unitsBudget.maxChars) ∧
      ∃ spans, (unitsPlan.table unitsText.byteLen).cuts unitsText unitsBudget = some spans ∧
        ∀ span ∈ spans, ¬ (6 < span.stop ∧ span.stop < 12) := by
  have hbuilt : unitsPlan.Built unitsText :=
    (CutPlan.Built.empty.markAll (by decide)).markAll (by decide)
  have hlevels : (unitsPlan.table unitsText.byteLen).levels = [[6, 12], [3, 9]] := by decide +kernel
  have hn : (unitsPlan.table unitsText.byteLen).Neighbours 0 6 12 := by
    refine ⟨Or.inr ⟨0, Nat.le_refl _, [6, 12], ?_, by decide⟩, Or.inr ⟨0, Nat.le_refl _, [6, 12], ?_, by decide⟩,
      by decide, ?_⟩
    · rw [hlevels]
      rfl
    · rw [hlevels]
      rfl
    · intro pos hpos hlt
      obtain ⟨n, hn, level, hlevel, hmem⟩ := hpos.exists_level hlt
      rw [Nat.le_zero.1 hn, hlevels] at hlevel
      cases hlevel
      rcases List.mem_cons.1 hmem with rfl | hmem
      · exact absurd hlt (Nat.lt_irrefl _)
      · exact Nat.le_of_eq (List.mem_singleton.1 hmem).symm
  have hfit : unitsText.charsIn ⟨6, 12⟩ ≤ unitsBudget.maxChars := by decide
  obtain ⟨spans, hcuts, -, hwhole⟩ := cuts_keep_neighbours_whole hbuilt unitsBudget
  exact ⟨⟨hbuilt, hn, hfit⟩, spans, hcuts, hwhole 0 6 12 hn hfit⟩

end CutTable
end Chunkwise
