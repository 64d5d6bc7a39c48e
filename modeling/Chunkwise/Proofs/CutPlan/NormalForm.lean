import Chunkwise.Proofs.CutPlan.Request

/-!
# The normal form of a plan

Whatever is asked of a plan, in whatever order and wherever it points, the table of the plan is in a normal form
(`normalForm_table`): the spans that it keeps whole are those that were asked for, joined where they overlap, and each
level holds the positions marked at it that a cut may be at, in ascending order.

The spans of a table are apart, so that the only one that can hold a position is the last that begins before it. That
tells whether a position is inside a span, and which span covers a byte (`inside_eq_lastBefore`,
`find?_covers_eq_lastBefore`).
-/

namespace Chunkwise
namespace CutPlan

variable {plan : CutPlan} {spans : List Span} {s : Span} {k pos bound : Nat}

/-! ## The last span that begins before a bound -/

/-- Of spans in the order of their starts, the last that begins before a bound. -/
def lastBefore (spans : List Span) (bound : Nat) : Option Span := (spans.takeWhile (·.start < bound)).getLast?

theorem mem_of_lastBefore (h : lastBefore spans bound = some s) : s ∈ spans ∧ s.start < bound := by
  have hmem := List.mem_of_getLast? h
  exact ⟨(List.takeWhile_sublist _).subset hmem, of_decide_eq_true (List.all_eq_true.1 List.all_takeWhile s hmem)⟩

/-- Of spans that are apart, one that reaches up to a bound is the last that begins before it. -/
theorem lastBefore_eq_some (hapart : Apart spans) (hne : ∀ a ∈ spans, a.start < a.stop) (hs : s ∈ spans)
    (hstart : s.start < bound) (hstop : bound ≤ s.stop) : lastBefore spans bound = some s := by
  induction spans with
  | nil => cases hs
  | cons a rest ih =>
    obtain ⟨hfirst, hrest⟩ := List.pairwise_cons.1 hapart
    rcases List.mem_cons.1 hs with rfl | hs
    · -- All that follow begin behind the end of this one.
      have hnil : rest.takeWhile (·.start < bound) = [] := by
        cases rest with
        | nil => rfl
        | cons b rest =>
          have := hfirst b List.mem_cons_self
          exact List.takeWhile_cons_of_neg (by simp only [decide_eq_true_eq]; omega)
      rw [lastBefore, List.takeWhile_cons, if_pos (decide_eq_true hstart), hnil, List.getLast?_singleton]
    · have hbefore : a.start < bound := by
        have := hne a List.mem_cons_self
        have := hfirst s hs
        omega
      have hlast := ih hrest (fun a ha => hne a (List.mem_cons_of_mem _ ha)) hs
      rw [lastBefore] at hlast
      rw [lastBefore, List.takeWhile_cons, if_pos (decide_eq_true hbefore), List.getLast?_cons, hlast, Option.getD_some]

/-- A position is inside one of some spans that are apart if the last that begins before it ends behind it. -/
theorem inside_eq_lastBefore (hapart : Apart spans) (hne : ∀ a ∈ spans, a.start < a.stop) (pos : Nat) :
    inside spans pos = (lastBefore spans pos).any (pos < ·.stop) := by
  rw [Bool.eq_iff_iff, inside_iff, Option.any_eq_true]
  constructor
  · rintro ⟨s, hs, hstart, hstop⟩
    exact ⟨s, lastBefore_eq_some hapart hne hs hstart (Nat.le_of_lt hstop), decide_eq_true hstop⟩
  · rintro ⟨s, hlast, hstop⟩
    obtain ⟨hs, hstart⟩ := mem_of_lastBefore hlast
    exact ⟨s, hs, hstart, of_decide_eq_true hstop⟩

/-- Of some spans that are apart the one that covers a byte is the last that begins there or before, if it ends
behind. -/
theorem find?_covers_eq_lastBefore (hapart : Apart spans) (hne : ∀ a ∈ spans, a.start < a.stop) (pos : Nat) :
    spans.find? (·.covers pos) = (lastBefore spans (pos + 1)).filter (pos < ·.stop) := by
  cases hfind : spans.find? (·.covers pos) with
  | some s =>
    have hcovers : s.covers pos := List.find?_some (p := fun s : Span => s.covers pos) hfind
    obtain ⟨hstart, hstop⟩ := Span.covers_iff.1 hcovers
    rw [lastBefore_eq_some hapart hne (List.mem_of_find?_eq_some hfind) (Nat.lt_succ_of_le hstart) hstop,
      Option.filter_some, if_pos (decide_eq_true hstop)]
  | none =>
    symm
    rw [Option.filter_eq_none_iff]
    intro s hlast hstop
    obtain ⟨hs, hstart⟩ := mem_of_lastBefore hlast
    exact List.find?_eq_none.1 hfind s hs (Span.covers_iff.2 ⟨Nat.le_of_lt_succ hstart, of_decide_eq_true hstop⟩)

/-! ## The normal form -/

/-- What the table of some requests is for a text of some length: spans kept whole that are apart, and levels of positions
to cut at, the one number `last` being for the edges of the spans. -/
structure NormalForm (requests : List Request) (size : Nat) (table : CutTable) (last : Nat) : Prop where
  /-- No span is empty. -/
  nonempty : ∀ s ∈ table.solid, s.start < s.stop
  /-- Each span ends before the next begins. -/
  apart : table.solid.Pairwise fun a b => a.stop ≤ b.start
  /-- The spans cover what those asked for cover. -/
  union : ∀ pos, (∃ s ∈ table.solid, s.covers pos) ↔ ∃ r ∈ requests, ∃ s, r.Keeps s ∧ s.covers pos
  /-- Each span that was asked for lies in one of them. -/
  whole : ∀ r ∈ requests, ∀ s, r.Keeps s → ∃ t ∈ table.solid, t.encloses s
  /-- The last span that begins before a position tells whether the position is inside one. -/
  inside : ∀ pos, CutPlan.inside table.solid pos = (lastBefore table.solid pos).any (pos < ·.stop)
  /-- The last span that begins at a byte or before is the one that covers the byte, if any does. -/
  covering : ∀ pos, table.solid.find? (·.covers pos) = (lastBefore table.solid (pos + 1)).filter (pos < ·.stop)
  /-- Each level is strictly ascending. -/
  ascending : ∀ level ∈ table.levels, level.Pairwise (· < ·)
  /-- A level holds the positions of the text marked at it that are not strictly inside a span, the end of the text
  being marked at level 0, and the edges of the spans at the last. -/
  mem : ∀ k level, table.levels[k]? = some level → ∀ pos, pos ∈ level ↔
    (1 ≤ pos ∧ pos ≤ size) ∧ (∀ s ∈ table.solid, ¬ (s.start < pos ∧ pos < s.stop)) ∧
      ((∃ r ∈ requests, r.Marks k pos) ∨ (k = 0 ∧ pos = size) ∨
        (k = last ∧ ∃ s ∈ table.solid, pos = s.start ∨ pos = s.stop))
  /-- There is a level 0, and one for the edges if there are any. -/
  length : table.levels.length = if table.solid = [] then last else last + 1
  /-- The level for the edges comes behind level 0 and behind all levels with marks. -/
  behind : 0 < last ∧ ∀ r ∈ requests, ∀ k pos, r.Marks k pos → k < last
  /-- It comes right behind one of them. -/
  least : last = 1 ∨ ∃ r ∈ requests, ∃ k pos, r.Marks k pos ∧ last = k + 1
  /-- The end of a text that is not empty is at level 0 if no span that was asked for reaches beyond it. -/
  textEnd : 0 < size → (∀ r ∈ requests, ∀ s, r.Keeps s → s.stop ≤ size) →
    ∃ level, table.levels[0]? = some level ∧ size ∈ level
  /-- The edges of the spans within the text are at the last level. -/
  edges : ∀ s ∈ table.solid, ∀ pos, pos = s.start ∨ pos = s.stop → 1 ≤ pos → pos ≤ size →
    ∃ level, table.levels[last]? = some level ∧ pos ∈ level

/-- **The table of some requests is in normal form**, whatever they are for and in whatever order they come. -/
theorem normalForm_table (requests : List Request) (size : Nat) :
    NormalForm requests size ((ofRequests requests).table size) (ofRequests requests).depth := by
  have hsolid : ∀ a ∈ (ofRequests requests).solid, a.start < a.stop := by
    intro a ha
    obtain ⟨r, -, hkeeps⟩ := mem_solid_ofRequests.1 ha
    exact r.start_lt_stop_of_keeps hkeeps
  have hne : ∀ s ∈ (ofRequests requests).mergedSolid, s.start < s.stop := fun _ => start_lt_stop_of_mem_mergedSolid hsolid
  have hapart : Apart (ofRequests requests).mergedSolid := pairwise_mergedSolid _
  constructor
  case nonempty => exact hne
  case apart => exact hapart
  case union =>
    intro pos
    refine (covers_mergedSolid _ pos).trans ?_
    simp only [mem_solid_ofRequests]
    constructor
    · rintro ⟨s, ⟨r, hr, hkeeps⟩, hcovers⟩
      exact ⟨r, hr, s, hkeeps, hcovers⟩
    · rintro ⟨r, hr, s, hkeeps, hcovers⟩
      exact ⟨s, ⟨r, hr, hkeeps⟩, hcovers⟩
  case whole => exact fun r hr s hkeeps => exists_mergedSolid_encloses (mem_solid_ofRequests.2 ⟨r, hr, hkeeps⟩)
  case inside => exact inside_eq_lastBefore hapart hne
  case covering => exact find?_covers_eq_lastBefore hapart hne
  case ascending => exact fun _ hlevel => pairwise_table_level hlevel
  case mem =>
    intro k level hlevel pos
    rw [mem_levels_getElem? hlevel, allowed_iff, inside_iff, mem_marks_ofRequests, mem_edges]
    simp only [not_exists, not_and, and_assoc]
    rfl
  case length => exact length_levels _ _
  case behind =>
    exact ⟨depth_pos _, fun r hr k pos hmarks => lt_depth (mem_marks_ofRequests.2 ⟨r, hr, hmarks⟩)⟩
  case least =>
    refine (foldl_above (ofRequests requests).marks 1 rfl).2.2.imp_right ?_
    rintro ⟨m, hm, hdepth⟩
    obtain ⟨r, hr, hmarks⟩ := mem_marks_ofRequests.1 hm
    exact ⟨r, hr, m.1, m.2, hmarks, hdepth⟩
  case textEnd =>
    intro hsize hwithin
    obtain ⟨level, hlevel, hmem⟩ := exists_coarsest_level (ofRequests requests) size
    refine ⟨level, hlevel, (hmem size).2 ⟨Or.inr rfl, allowed_end (fun s hs => ?_) hsize⟩⟩
    obtain ⟨r, hr, hkeeps⟩ := mem_solid_ofRequests.1 hs
    exact hwithin r hr s hkeeps
  case edges =>
    intro s hs pos hedge hpos hsize
    refine exists_level_of_mem_edges (mem_edges.2 ⟨s, hs, hedge⟩) (allowed_iff.2 ⟨hpos, hsize, ?_⟩)
    exact hapart.not_inside_edge hne hs hedge

end CutPlan
end Chunkwise
