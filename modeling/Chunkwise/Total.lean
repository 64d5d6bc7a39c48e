/-!
# Totals

The sum of what the members of a list come to. `totalOf_append`: the totals of two lists add up; `totalOf_perm`: they
do not depend on the order.
-/

namespace Chunkwise

/-- What the members of a list come to together. -/
def totalOf {α : Type} (size : α → Nat) (xs : List α) : Nat := xs.foldr (fun x sum => size x + sum) 0

@[simp] theorem totalOf_nil {α : Type} (size : α → Nat) : totalOf size [] = 0 := rfl

@[simp] theorem totalOf_cons {α : Type} (size : α → Nat) (x : α) (xs : List α) :
    totalOf size (x :: xs) = size x + totalOf size xs := rfl

/-- Totals add up. -/
theorem totalOf_append {α : Type} (size : α → Nat) (xs ys : List α) :
    totalOf size (xs ++ ys) = totalOf size xs + totalOf size ys := by
  induction xs with
  | nil => simp
  | cons x xs ih => rw [List.cons_append, totalOf_cons, ih, totalOf_cons, Nat.add_assoc]

/-- What members come to in two ways adds up. -/
theorem totalOf_add {α : Type} (size weight : α → Nat) (xs : List α) :
    totalOf (fun x => size x + weight x) xs = totalOf size xs + totalOf weight xs := by
  induction xs with
  | nil => rfl
  | cons x xs ih =>
    rw [totalOf_cons, totalOf_cons, totalOf_cons, ih]
    omega

/-- Totals do not depend on the order. -/
theorem totalOf_perm {α : Type} (size : α → Nat) {xs ys : List α} (h : xs.Perm ys) :
    totalOf size xs = totalOf size ys := by
  induction h with
  | nil => rfl
  | cons x _ ih => rw [totalOf_cons, totalOf_cons, ih]
  | swap x y xs =>
    simp only [totalOf_cons]
    omega
  | trans _ _ ih ih' => exact ih.trans ih'

theorem totalOf_map {α β : Type} (size : β → Nat) (f : α → β) (xs : List α) :
    totalOf size (xs.map f) = totalOf (fun x => size (f x)) xs := by
  rw [totalOf, List.foldr_map]
  rfl

end Chunkwise
