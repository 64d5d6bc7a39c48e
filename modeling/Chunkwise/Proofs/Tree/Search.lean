import Chunkwise.Tree.Name

/-!
# The search for a name, turn by turn

A search for a name under a node keeps the nodes that wait in a list, the next one last, and counts those that it has
taken. A turn takes the last one (`Search.turn`). The search ends with this node if it is not the one that the search
began at and can name a symbol, and without a name behind `nameSearchLimit` nodes; else the children of the node wait in
front of all others.

What waits is the rest of the preorder listing (`Search.ahead_concat`), so that the answer is the first name among the
nodes ahead, up to the limit. A turn gives this answer or keeps it so (`Search.Reached.turn_cases`). A search therefore
ends, after no more turns than the limit and one, with the first name of the listing (`Search.run_start`), and the
text of this node is what the search for a name gives (`names_are_first_of_listing`).
-/

namespace Chunkwise
namespace Node

/-- A search for a name: the nodes that wait, the next one last, each with the path to it from the node that the search
began at, and the number of nodes taken so far. -/
structure Search where
  waiting : List (List Nat × Node)
  taken : Nat

/-- What a turn of a search comes to. -/
inductive Search.Turn where
  | ends (found : Option Node)
  | goesOn (next : Search)

/-- The first node that can name a symbol among the first nodes of the listing of a node, without that node itself. -/
def firstName? (language : Language) (node : Node) : Option Node :=
  ((node.preorder.take nameSearchLimit).drop 1).find? (isName language)

namespace Search

variable {language : Language} {root node : Node} {s : Search} {path : List Nat} {turns : Nat}

/-- A search that begins at a node. -/
def start (root : Node) : Search := ⟨[([], root)], 0⟩

/-- The children of a node, each with the path to it. -/
def below (path : List Nat) (node : Node) : List (List Nat × Node) :=
  node.children.zipIdx.map fun (child, i) => (path ++ [i], child)

/-- One turn of a search. Its own path tells the node that the search began at from all others. -/
def turn (language : Language) (s : Search) : Turn :=
  match s.waiting.getLast? with
  | none => .ends none
  | some (path, node) =>
    if nameSearchLimit < s.taken + 1 then .ends none
    else if path ≠ [] ∧ isName language node then .ends (some node)
    else .goesOn ⟨s.waiting.dropLast ++ (below path node).reverse, s.taken + 1⟩

/-- What a search comes to within a number of turns; `none` if it has not ended by then. -/
def run (language : Language) : Nat → Search → Option (Option Node)
  | 0, _ => none
  | turns + 1, s => match s.turn language with
    | .ends found => some found
    | .goesOn next => run language turns next

/-! ## What waits -/

/-- The nodes that a search has ahead, in the order in which it takes them. -/
def ahead (s : Search) : List Node := preorderAll (s.waiting.reverse.map (·.2))

theorem map_below (path : List Nat) (node : Node) : (below path node).map (·.2) = node.children := by
  rw [below, List.map_map]
  exact List.zipIdx_map_fst 0 node.children

theorem ne_nil_of_mem_below {w : List Nat × Node} (h : w ∈ below path node) : w.1 ≠ [] := by
  obtain ⟨⟨child, i⟩, -, rfl⟩ := List.mem_map.1 h
  simp

/-- The node that is taken is the next one ahead. Its children in front of the others keep the rest in order. -/
theorem ahead_concat (front : List (List Nat × Node)) (path : List Nat) (node : Node) (taken : Nat) :
    (⟨front ++ [(path, node)], taken⟩ : Search).ahead =
      node :: (⟨front ++ (below path node).reverse, taken + 1⟩ : Search).ahead := by
  simp only [ahead, List.reverse_append, List.reverse_reverse, List.reverse_singleton, List.singleton_append,
    List.map_append, List.map_cons, map_below]
  rw [preorderAll, preorder_eq, List.cons_append, preorderAll_append]

/-! ## Turns -/

/-- What is true of a search that has left the node it began at: the answer is the first name among the nodes ahead, up to
the limit. -/
structure Reached (language : Language) (root : Node) (s : Search) : Prop where
  answer : (s.ahead.take (nameSearchLimit - s.taken)).find? (isName language) = root.firstName? language
  taken_le : s.taken ≤ nameSearchLimit
  apart : ∀ w ∈ s.waiting, w.1 ≠ []

/-- A search does not stop at the node that it begins at, whether it could name a symbol or not. -/
theorem turn_start (language : Language) (root : Node) :
    (start root).turn language = .goesOn ⟨(below [] root).reverse, 1⟩ := rfl

theorem reached_first (language : Language) (root : Node) : Reached language root ⟨(below [] root).reverse, 1⟩ where
  answer := by
    rw [ahead, List.reverse_reverse, map_below, firstName?, preorder_eq]
    rfl
  taken_le := (by decide : 1 ≤ nameSearchLimit)
  apart := fun _ hw => ne_nil_of_mem_below (List.mem_reverse.1 hw)

/-- **A turn gives the answer, or leaves it ahead.** -/
theorem Reached.turn_cases (h : s.Reached language root) : s.turn language = .ends (root.firstName? language) ∨
    ∃ next, s.turn language = .goesOn next ∧ next.taken = s.taken + 1 ∧ next.Reached language root := by
  obtain ⟨waiting, taken⟩ := s
  obtain ⟨hanswer, htaken, hapart⟩ := h
  simp only at hanswer htaken hapart
  -- Either nothing waits, or the limit is reached, or the node taken is a name; else its children wait for the next turn.
  rcases List.eq_nil_or_concat waiting with rfl | ⟨front, ⟨path, node⟩, rfl⟩
  · left
    rw [← hanswer]
    simp [turn, ahead, preorderAll]
  · rw [List.concat_eq_append] at hanswer hapart ⊢
    rw [ahead_concat] at hanswer
    have hpath : path ≠ [] := hapart (path, node) (by simp)
    simp only [turn, List.getLast?_append, List.getLast?_singleton, Option.some_or, List.dropLast_concat]
    rcases Nat.eq_or_lt_of_le htaken with hlimit | hbelow
    · left
      rw [if_pos (by omega), ← hanswer, hlimit, Nat.sub_self, List.take_zero, List.find?_nil]
    · rw [show nameSearchLimit - taken = nameSearchLimit - (taken + 1) + 1 by omega, List.take_succ_cons,
        List.find?_cons] at hanswer
      rw [if_neg (by omega)]
      by_cases hname : isName language node
      · left
        rw [if_pos ⟨hpath, hname⟩, ← hanswer, hname]
      · right
        rw [if_neg fun hfound => hname hfound.2]
        rw [Bool.eq_false_iff.2 hname] at hanswer
        refine ⟨_, rfl, rfl, hanswer, hbelow, fun w hw => ?_⟩
        rcases List.mem_append.1 hw with hw | hw
        · exact hapart w (List.mem_append_left _ hw)
        · exact ne_nil_of_mem_below (List.mem_reverse.1 hw)

/-- A search ends with the answer, once it has turns enough to pass the limit. -/
theorem Reached.run_eq (h : s.Reached language root) (hturns : nameSearchLimit < s.taken + turns) :
    run language turns s = some (root.firstName? language) := by
  induction turns generalizing s with
  | zero => exact absurd hturns (Nat.not_lt_of_le h.taken_le)
  | succ turns ih =>
    rw [run]
    rcases h.turn_cases with hends | ⟨next, hgoes, htaken, hnext⟩
    · rw [hends]
    · rw [hgoes]
      exact ih hnext (by omega)

/-- **A search ends**, after no more turns than the limit and one, with the first name of the listing. -/
theorem run_start (language : Language) (root : Node) (more : Nat) :
    run language (nameSearchLimit + 1 + more) (start root) = some (root.firstName? language) := by
  rw [show nameSearchLimit + 1 + more = nameSearchLimit + more + 1 by omega, run, turn_start]
  exact (reached_first language root).run_eq (by simp only; omega)

end Search

/-- What names a node is the text of the first name of its listing. -/
theorem descendantName_eq (language : Language) (text : Text) (node : Node) :
    node.descendantName language text = (node.firstName? language).bind (textOf text) := by
  rw [descendantName, firstNamed_eq_find?, firstName?, preorder_eq]
  rfl

/-- **The search for a name is a bounded search in preorder.** For every node it ends after at most 257 turns, with the first
node other than the node itself that can name a symbol among the first 256 of the preorder listing, or with none if there
is no such node. What names the node is the text of the one found without blanks around it, and nothing if it is blank. -/
theorem names_are_first_of_listing (language : Language) (text : Text) (node : Node) :
    ∃ found, found = ((node.preorder.take 256).drop 1).find? (fun n => language.nameKinds.contains n.kind) ∧
      (∀ more, (Search.start node).run language (257 + more) = some found) ∧
      node.descendantName language text = match found with
        | none => none
        | some named => match text.slice? named.span with
          | none => none
          | some raw => if raw.isBlank then none else some (String.ofList raw.trim) := by
  refine ⟨node.firstName? language, rfl, Search.run_start language node, ?_⟩
  rw [descendantName_eq]
  cases node.firstName? language with
  | none => rfl
  | some named => rfl

-- A node does not name itself.
example (text : Text) : (mk "identifier" true ⟨0, 1⟩ {} []).descendantName .python text = none := rfl

end Node
end Chunkwise
