import Chunkwise.Proofs.CutPlan.Merge
import Chunkwise.Proofs.Text.Position

/-!
# Tables of plans on the positions of a text

A level of a table holds the allowed positions that are marked there, with the end of the text among those of level 0
and the edges of the spans to keep whole at a level behind all others (`mem_levels_getElem?`).

`Built text plan` says that a plan has come about by marking positions of the text and asking to keep spans between
positions whole. Its table fits the text (`Built.fits`): all its cuts are positions outside the spans to keep, those
spans are slices with something in them, and their edges are cuts themselves. Nothing more is needed of a table to
cut a text by it. For its cuts to spare the spans to keep whole less will do: the marks may be anywhere
(`spares_table`).
-/

namespace Chunkwise

variable {text : Text} {pos : Nat}

/-- A slice of a text with something in it. -/
structure Span.SliceOf (s : Span) (text : Text) : Prop where
  nonempty : s.start < s.stop
  start : text.isBoundary s.start
  stop : text.isBoundary s.stop

/-- What it takes of a table to cut a text by it. -/
structure CutTable.Fits (table : CutTable) (text : Text) : Prop where
  /-- The cuts are positions of the text. -/
  positions : ∀ level ∈ table.levels, ∀ pos ∈ level, text.isBoundary pos
  /-- The cuts of a level are in order. -/
  ascending : ∀ level ∈ table.levels, level.Pairwise (· < ·)
  /-- No cut falls inside a span to keep whole. -/
  clear : ∀ level ∈ table.levels, ∀ pos ∈ level, ¬ CutPlan.inside table.solid pos
  solid : ∀ s ∈ table.solid, s.SliceOf text
  /-- The edges of the spans to keep whole are cuts, the start of the text apart. -/
  edges : ∀ s ∈ table.solid, ∀ pos, pos = s.start ∨ pos = s.stop → 0 < pos → ∃ level ∈ table.levels, pos ∈ level

/-- What it takes of a table for its cuts to spare the spans to keep whole. -/
structure CutTable.Spares (table : CutTable) : Prop where
  /-- No cut falls inside a span to keep whole. -/
  clear : ∀ level ∈ table.levels, ∀ pos ∈ level, ¬ CutPlan.inside table.solid pos
  /-- The edges of the spans to keep whole are cuts, the start of the text apart. -/
  edges : ∀ s ∈ table.solid, ∀ pos, pos = s.start ∨ pos = s.stop → 0 < pos → ∃ level ∈ table.levels, pos ∈ level

namespace CutPlan

variable {plan : CutPlan}

/-- Plans made of positions of a text. -/
inductive Built (text : Text) : CutPlan → Prop
  | empty : Built text {}
  | mark {plan : CutPlan} {level pos : Nat} : Built text plan → text.isBoundary pos → Built text (plan.mark level pos)
  | markAll {plan : CutPlan} {level : Nat} {positions : List Nat} : Built text plan →
      (∀ pos ∈ positions, text.isBoundary pos) → Built text (plan.markAll level positions)
  | keepWhole {plan : CutPlan} {span : Span} : Built text plan → text.isBoundary span.start →
      text.isBoundary span.stop → Built text (plan.keepWhole span)

/-- A fold over steps that keep to the positions of a text does. -/
theorem Built.foldl {α : Type} {f : CutPlan → α → CutPlan} {l : List α}
    (hf : ∀ a ∈ l, ∀ plan, Built text plan → Built text (f plan a)) (h : Built text plan) :
    Built text (l.foldl f plan) := by
  induction l generalizing plan with
  | nil => exact h
  | cons a l ih =>
    exact ih (fun b hb => hf b (List.mem_cons_of_mem _ hb)) (hf a List.mem_cons_self _ h)

theorem Built.isBoundary_mark (h : Built text plan) : ∀ m ∈ plan.marks, text.isBoundary m.2 := by
  induction h with
  | empty => intro m hm; cases hm
  | mark _ hpos ih =>
    intro m hm
    rcases List.mem_cons.1 hm with rfl | hm
    · exact hpos
    · exact ih m hm
  | markAll _ hpos ih =>
    intro m hm
    rcases List.mem_append.1 hm with hm | hm
    · obtain ⟨pos, hp, rfl⟩ := List.mem_map.1 hm
      exact hpos pos hp
    · exact ih m hm
  | keepWhole _ _ _ ih =>
    intro m hm
    unfold CutPlan.keepWhole at hm
    split at hm <;> exact ih m hm

/-- The spans that a plan keeps whole are slices with something in them. -/
theorem Built.sliceOf_solid (h : Built text plan) : ∀ s ∈ plan.solid, s.SliceOf text := by
  induction h with
  | empty => intro s hs; cases hs
  | mark _ _ ih => exact ih
  | markAll _ _ ih => exact ih
  | keepWhole _ hstart hstop ih =>
    intro s hs
    unfold CutPlan.keepWhole at hs
    split at hs
    · rename_i hlt
      rcases List.mem_cons.1 hs with rfl | hs
      · exact ⟨hlt, hstart, hstop⟩
      · exact ih s hs
    · exact ih s hs

/-- Merged slices are slices. -/
theorem sliceOf_mergedSolid (hsolid : ∀ a ∈ plan.solid, a.SliceOf text) {s : Span} (hs : s ∈ plan.mergedSolid) :
    s.SliceOf text := by
  obtain ⟨⟨a, ha, hstart⟩, b, hb, hstop⟩ := edges_of_mem_mergedSolid hs
  refine ⟨start_lt_stop_of_mem_mergedSolid (fun a ha => (hsolid a ha).nonempty) hs, ?_, ?_⟩
  · rw [hstart]; exact (hsolid a ha).start
  · rw [hstop]; exact (hsolid b hb).stop

/-! ## The levels of a table -/

def edges (plan : CutPlan) : List Nat := plan.mergedSolid.flatMap fun s => [s.start, s.stop]

theorem mem_edges : pos ∈ plan.edges ↔ ∃ s ∈ plan.mergedSolid, pos = s.start ∨ pos = s.stop := by
  simp [edges]

theorem allowed_iff {solid : List Span} {size : Nat} :
    allowed solid size pos ↔ 0 < pos ∧ pos ≤ size ∧ ¬ inside solid pos := by
  simp [allowed, and_assoc]

/-- A running maximum over levels from a number on is above them all, and is the number or comes from one of them. -/
theorem foldl_above (marks : List (Nat × Nat)) (n : Nat) {depth : Nat}
    (h : depth = marks.foldl (fun n m => max n (m.1 + 1)) n) :
    n ≤ depth ∧ (∀ m ∈ marks, m.1 < depth) ∧ (depth = n ∨ ∃ m ∈ marks, depth = m.1 + 1) := by
  induction marks generalizing n with
  | nil => exact ⟨Nat.le_of_eq h.symm, fun m hm => absurd hm List.not_mem_nil, Or.inl h⟩
  | cons m marks ih =>
    obtain ⟨hle, hlt, hattained⟩ := ih (max n (m.1 + 1)) h
    refine ⟨by omega, fun a ha => ?_, ?_⟩
    · rcases List.mem_cons.1 ha with rfl | ha
      · omega
      · exact hlt a ha
    · rcases hattained with heq | ⟨a, ha, heq⟩
      · rcases Nat.le_total n (m.1 + 1) with hn | hn
        · exact Or.inr ⟨m, List.mem_cons_self, by omega⟩
        · exact Or.inl (by omega)
      · exact Or.inr ⟨a, List.mem_cons_of_mem _ ha, heq⟩

theorem depth_pos (plan : CutPlan) : 0 < plan.depth := (foldl_above plan.marks 1 rfl).1

/-- The levels of a plan all have smaller numbers than the one for the edges. -/
theorem lt_depth {k : Nat} (h : (k, pos) ∈ plan.marks) : k < plan.depth := (foldl_above plan.marks 1 rfl).2.1 _ h

theorem levels_table (plan : CutPlan) (size : Nat) : (plan.table size).levels =
    (List.range plan.depth).map (fun k => Ascending.ofList ((plan.markedAt size k).filter
      (allowed plan.mergedSolid size))) ++
    if plan.edges.isEmpty then [] else [Ascending.ofList (plan.edges.filter (allowed plan.mergedSolid size))] := rfl

theorem edges_isEmpty (plan : CutPlan) : plan.edges.isEmpty ↔ plan.mergedSolid = [] := by
  rw [List.isEmpty_iff, List.eq_nil_iff_forall_not_mem, List.eq_nil_iff_forall_not_mem]
  constructor
  · exact fun h s hs => h s.start (mem_edges.2 ⟨s, hs, Or.inl rfl⟩)
  · intro h pos hpos
    obtain ⟨s, hs, -⟩ := mem_edges.1 hpos
    exact h s hs

/-- A table has the levels of its plan, and one for the edges of the spans kept whole if there are any. -/
theorem length_levels (plan : CutPlan) (size : Nat) :
    (plan.table size).levels.length = if plan.mergedSolid = [] then plan.depth else plan.depth + 1 := by
  rw [levels_table, List.length_append, List.length_map, List.length_range]
  simp only [edges_isEmpty]
  split <;> rfl

theorem mem_markedAt {size k : Nat} :
    pos ∈ plan.markedAt size k ↔ (k, pos) ∈ plan.marks ∨ (k = 0 ∧ pos = size) := by
  simp only [markedAt, List.mem_map, List.mem_filter, List.mem_cons, beq_iff_eq]
  constructor
  · rintro ⟨m, ⟨rfl | hmark, rfl⟩, rfl⟩
    · exact Or.inr ⟨rfl, rfl⟩
    · exact Or.inl hmark
  · rintro (hmark | ⟨rfl, rfl⟩)
    · exact ⟨(k, pos), ⟨Or.inr hmark, rfl⟩, rfl⟩
    · exact ⟨(0, pos), ⟨Or.inl rfl, rfl⟩, rfl⟩

/-- **What a level of a table holds** is allowed, and is marked there, the end of the text or an edge. -/
theorem mem_levels_getElem? {size k : Nat} {level : List Nat} (h : (plan.table size).levels[k]? = some level) :
    pos ∈ level ↔ allowed plan.mergedSolid size pos ∧
      ((k, pos) ∈ plan.marks ∨ (k = 0 ∧ pos = size) ∨ (k = plan.depth ∧ pos ∈ plan.edges)) := by
  rcases Nat.lt_or_ge k plan.depth with hlt | hge
  · have hne : k ≠ plan.depth := Nat.ne_of_lt hlt
    rw [mem_table_level hlt h, mem_markedAt, and_comm]
    simp only [hne, false_and, or_false]
  · -- Behind the levels of the plan there is only the one for the edges.
    have hmark : (k, pos) ∉ plan.marks := fun hmark => Nat.not_lt_of_ge hge (lt_depth hmark)
    have hzero : k ≠ 0 := Nat.ne_of_gt (Nat.lt_of_lt_of_le (depth_pos plan) hge)
    rw [levels_table, List.getElem?_append_right (by simpa using hge), List.length_map, List.length_range] at h
    split at h
    · cases h
    · rw [List.getElem?_singleton] at h
      split at h
      · rename_i hle
        obtain rfl : k = plan.depth := Nat.le_antisymm (Nat.le_of_sub_eq_zero hle) hge
        cases h
        rw [Ascending.mem_ofList, List.mem_filter, and_comm]
        simp only [hmark, hzero, false_and, false_or, true_and]
      · cases h

/-- What is at a level of a table is allowed, and is marked, the end of the text or an edge. -/
theorem mem_level {size : Nat} {level : List Nat} (hlevel : level ∈ (plan.table size).levels) (hpos : pos ∈ level) :
    allowed plan.mergedSolid size pos ∧ ((∃ k, (k, pos) ∈ plan.marks) ∨ pos = size ∨ pos ∈ plan.edges) := by
  obtain ⟨k, hk⟩ := List.mem_iff_getElem?.1 hlevel
  obtain ⟨hallowed, hmark | ⟨-, hend⟩ | ⟨-, hedge⟩⟩ := (mem_levels_getElem? hk).1 hpos
  · exact ⟨hallowed, Or.inl ⟨k, hmark⟩⟩
  · exact ⟨hallowed, Or.inr (Or.inl hend)⟩
  · exact ⟨hallowed, Or.inr (Or.inr hedge)⟩

/-- The edges that are allowed are at a level of their own. -/
theorem exists_level_of_mem_edges {size : Nat} (hedge : pos ∈ plan.edges)
    (hallowed : allowed plan.mergedSolid size pos) :
    ∃ level, (plan.table size).levels[plan.depth]? = some level ∧ pos ∈ level := by
  obtain ⟨s, hs, -⟩ := mem_edges.1 hedge
  have hlength := length_levels plan size
  rw [if_neg (List.ne_nil_of_mem hs)] at hlength
  have hlevel := List.getElem?_eq_getElem (l := (plan.table size).levels) (i := plan.depth) (by omega)
  exact ⟨_, hlevel, (mem_levels_getElem? hlevel).2 ⟨hallowed, Or.inr (Or.inr ⟨rfl, hedge⟩)⟩⟩

/-- The coarsest level of a table holds the allowed marks of level 0 and the end of the text. -/
theorem exists_coarsest_level (plan : CutPlan) (size : Nat) : ∃ level, (plan.table size).levels[0]? = some level ∧
    ∀ pos, pos ∈ level ↔ ((0, pos) ∈ plan.marks ∨ pos = size) ∧ allowed plan.mergedSolid size pos := by
  have hdepth := depth_pos plan
  have hlength : 0 < (plan.table size).levels.length := by
    rw [length_levels]
    split <;> omega
  have hlevel := List.getElem?_eq_getElem hlength
  refine ⟨_, hlevel, fun pos => ?_⟩
  rw [mem_levels_getElem? hlevel, and_comm]
  simp only [Nat.ne_of_lt hdepth, true_and, false_and, or_false]

/-- A text that is not empty may be cut at its end if nothing that is kept whole reaches beyond it. -/
theorem allowed_end {size : Nat} (hwithin : ∀ s ∈ plan.solid, s.stop ≤ size) (hne : 0 < size) :
    allowed plan.mergedSolid size size := by
  refine allowed_iff.2 ⟨hne, Nat.le_refl _, fun hin => ?_⟩
  obtain ⟨s, hs, -, hstop⟩ := inside_iff.1 ((inside_mergedSolid _ _).1 hin)
  exact Nat.not_lt_of_ge (hwithin s hs) hstop

theorem allowed_byteLen (hsolid : ∀ s ∈ plan.solid, s.SliceOf text) (hne : 0 < text.byteLen) :
    allowed plan.mergedSolid text.byteLen text.byteLen :=
  allowed_end (fun s hs => Text.le_byteLen_of_isBoundary (hsolid s hs).stop) hne

/-- A table spares the spans to keep whole, wherever the marks of its plan are. -/
theorem spares_table (hsolid : ∀ s ∈ plan.solid, s.SliceOf text) : (plan.table text.byteLen).Spares where
  clear := fun _ hlevel _ hpos => (allowed_iff.1 (mem_level hlevel hpos).1).2.2
  edges := by
    intro s hs pos hpos hlt
    have hslice := sliceOf_mergedSolid hsolid hs
    have hne : ∀ a ∈ plan.mergedSolid, a.start < a.stop := fun a ha => (sliceOf_mergedSolid hsolid ha).nonempty
    have hallowed : allowed plan.mergedSolid text.byteLen pos := by
      refine allowed_iff.2 ⟨hlt, ?_, (pairwise_mergedSolid plan).not_inside_edge hne hs hpos⟩
      rcases hpos with rfl | rfl
      · exact Text.le_byteLen_of_isBoundary hslice.start
      · exact Text.le_byteLen_of_isBoundary hslice.stop
    obtain ⟨level, hlevel, hmem⟩ := exists_level_of_mem_edges (mem_edges.2 ⟨s, hs, hpos⟩) hallowed
    exact ⟨level, List.mem_of_getElem? hlevel, hmem⟩

/-- A table fits its text if the marks of its plan that lie within the text are positions of it; those behind the
text are left out. -/
theorem fits_table (hmarks : ∀ m ∈ plan.marks, m.2 ≤ text.byteLen → text.isBoundary m.2)
    (hsolid : ∀ s ∈ plan.solid, s.SliceOf text) : (plan.table text.byteLen).Fits text where
  positions := by
    intro level hlevel pos hpos
    obtain ⟨hallowed, ⟨k, hmark⟩ | rfl | hedge⟩ := mem_level hlevel hpos
    · exact hmarks _ hmark (allowed_iff.1 hallowed).2.1
    · exact Text.isBoundary_byteLen text
    · obtain ⟨s, hs, rfl | rfl⟩ := mem_edges.1 hedge
      · exact (sliceOf_mergedSolid hsolid hs).start
      · exact (sliceOf_mergedSolid hsolid hs).stop
  ascending := fun _ hlevel => pairwise_table_level hlevel
  clear := (spares_table hsolid).clear
  solid := fun _ hs => sliceOf_mergedSolid hsolid hs
  edges := (spares_table hsolid).edges

/-- **The table of a plan made of positions of a text fits the text.** -/
theorem Built.fits (h : Built text plan) : (plan.table text.byteLen).Fits text :=
  fits_table (fun m hm _ => h.isBoundary_mark m hm) h.sliceOf_solid

end CutPlan
end Chunkwise
