/-!
# Ascending lists of numbers

A finite set of numbers as its ascending list. `insert` adds a number in its place, `ofList` collects any list;
`mem_ofList` and `pairwise_ofList` say that this keeps the members and puts each of them once, in order.
-/

namespace Chunkwise
namespace Ascending

/-- Adds a number to an ascending list, unless it is there. -/
def insert (n : Nat) : List Nat → List Nat
  | [] => [n]
  | m :: ms => if n < m then n :: m :: ms else if n = m then m :: ms else m :: insert n ms

/-- The members of a list, ascending, each once. -/
def ofList (ns : List Nat) : List Nat := ns.foldr insert []

@[simp] theorem mem_insert {k n : Nat} {ms : List Nat} : k ∈ insert n ms ↔ k = n ∨ k ∈ ms := by
  induction ms with
  | nil => simp [insert]
  | cons m ms ih =>
    rw [insert]
    split
    · simp
    · split
      · subst_vars; simp
      · simp only [List.mem_cons, ih]
        exact ⟨fun h => by rcases h with h | h | h <;> simp [h], fun h => by rcases h with h | h | h <;> simp [h]⟩

/-- Collecting keeps the members. -/
@[simp] theorem mem_ofList {k : Nat} {ns : List Nat} : k ∈ ofList ns ↔ k ∈ ns := by
  induction ns with
  | nil => simp [ofList]
  | cons n ns ih => simp only [ofList, List.foldr_cons, mem_insert, List.mem_cons] at ih ⊢; rw [ih]

theorem pairwise_insert {n : Nat} {ms : List Nat} (h : ms.Pairwise (· < ·)) : (insert n ms).Pairwise (· < ·) := by
  induction ms with
  | nil => simp [insert]
  | cons m ms ih =>
    have hm := List.pairwise_cons.1 h
    rw [insert]
    split
    · refine List.pairwise_cons.2 ⟨fun k hk => ?_, h⟩
      rcases List.mem_cons.1 hk with rfl | hk
      · assumption
      · exact Nat.lt_trans ‹n < m› (hm.1 k hk)
    · split
      · exact h
      · refine List.pairwise_cons.2 ⟨fun k hk => ?_, ih hm.2⟩
        rcases mem_insert.1 hk with rfl | hk
        · omega
        · exact hm.1 k hk

/-- A collected list is strictly ascending. -/
theorem pairwise_ofList (ns : List Nat) : (ofList ns).Pairwise (· < ·) := by
  induction ns with
  | nil => exact List.Pairwise.nil
  | cons n ns ih => exact pairwise_insert ih

end Ascending
end Chunkwise
