/-!
# Steps that may fail

A step `Yields` a value under a condition if it comes to that value or, where the condition is not met, may fail. What
is composed of such steps yields what is composed of their values (`Yields.bind`, and along lists `Yields.mapM`,
`Yields.allM`, `Yields.filterM` and `Yields.foldlM`). Under the condition nothing fails (`Yields.eq_some`); what does
not fail comes to the value in any case (`Yields.eq_of_some`).
-/

namespace Chunkwise

/-- Whether a step comes to a value, or fails where a condition is not met. -/
def Yields {α : Type} (P : Prop) (r : Option α) (a : α) : Prop := r = some a ∨ (r = none ∧ ¬ P)

namespace Yields

variable {α β : Type} {P : Prop} {r : Option α} {a a' : α} {b : β} {l : List α}

theorem some (P : Prop) (a : α) : Yields P (.some a) a := Or.inl rfl

theorem eq_some (h : Yields P r a) (hp : P) : r = .some a := h.resolve_right fun hnone => hnone.2 hp

theorem eq_of_some (h : Yields P (.some a') a) : a' = a := by
  rcases h with h | ⟨h, -⟩
  · exact Option.some.inj h
  · cases h

theorem bind {k : α → Option β} (hr : Yields P r a) (hk : Yields P (k a) b) : Yields P (r.bind k) b := by
  rcases hr with rfl | ⟨rfl, hp⟩
  · exact hk
  · exact Or.inr ⟨rfl, hp⟩

theorem map (hr : Yields P r a) (g : α → β) : Yields P (r.map g) (g a) := by
  rcases hr with rfl | ⟨rfl, hp⟩
  · exact Or.inl rfl
  · exact Or.inr ⟨rfl, hp⟩

/-! ## Along lists -/

theorem mapM {f : α → Option β} {g : α → β} (h : ∀ a ∈ l, Yields P (f a) (g a)) : Yields P (l.mapM f) (l.map g) := by
  induction l with
  | nil => exact some P []
  | cons a l ih =>
    have hrest := ih fun b hb => h b (List.mem_cons_of_mem _ hb)
    rw [List.mapM_cons]
    exact (h a List.mem_cons_self).bind (hrest.bind (some P _))

theorem allM {p : α → Option Bool} {q : α → Bool} (h : ∀ a ∈ l, Yields P (p a) (q a)) :
    Yields P (l.allM p) (l.all q) := by
  induction l with
  | nil => exact some P true
  | cons a l ih =>
    have hrest := ih fun b hb => h b (List.mem_cons_of_mem _ hb)
    refine (h a List.mem_cons_self).bind ?_
    rw [List.all_cons]
    cases q a with
    | false => exact some P false
    | true => exact hrest

theorem filterM {p : α → Option Bool} {q : α → Bool} (h : ∀ a ∈ l, Yields P (p a) (q a)) :
    Yields P (l.filterM p) (l.filter q) := by
  -- The accumulator of the loop holds what was kept so far, the last member first.
  have haux : ∀ acc, Yields P (l.filterAuxM p acc) ((l.filter q).reverse ++ acc) := by
    induction l with
    | nil => exact fun acc => some P acc
    | cons a l ih =>
      intro acc
      have hrest := ih fun b hb => h b (List.mem_cons_of_mem _ hb)
      refine (h a List.mem_cons_self).bind ?_
      rw [List.filter_cons]
      cases q a with
      | false => exact hrest acc
      | true =>
        have htrue := hrest (a :: acc)
        rwa [if_pos rfl, List.reverse_cons, List.append_assoc]
  have hreverse : (l.filter q).reverse.reverse = l.filter q := List.reverse_reverse _
  rw [← hreverse, ← List.append_nil (l.filter q).reverse]
  exact (haux []).bind (some P _)

theorem foldlM {f : β → α → Option β} {g : β → α → β} (h : ∀ a ∈ l, ∀ b, Yields P (f b a) (g b a)) (b : β) :
    Yields P (l.foldlM f b) (l.foldl g b) := by
  induction l generalizing b with
  | nil => exact some P b
  | cons a l ih =>
    rw [List.foldlM_cons, List.foldl_cons]
    exact (h a List.mem_cons_self b).bind (ih (fun a ha => h a (List.mem_cons_of_mem _ ha)) (g b a))

end Yields
end Chunkwise
