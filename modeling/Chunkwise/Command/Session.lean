import Chunkwise.Command.Problem

/-!
# Sessions

A session writes lines to the standard output until it ends or a problem stops it. What is written stays written,
also when a problem comes after it.

* `on_bind`: a session goes on from the lines that are written when the one before it ends.
* `on_forM_writeLine`: writing about some things adds a line for each of them, in order.
-/

namespace Chunkwise
namespace Command

/-- Something that writes lines and may be stopped by a problem. -/
abbrev Session := ExceptT Problem (StateM (List String))

namespace Session

variable {α β : Type}

/-- Writes a line. -/
def writeLine (line : String) : Session Unit := modify (· ++ [line])

/-- A session that writes nothing and ends as a computation does. -/
def ofExcept (result : Except Problem α) : Session α := ExceptT.mk (pure result)

/-- How a session ends that begins with some lines written, and the lines written then. -/
def on (session : Session α) (earlier : List String) : Except Problem α × List String :=
  StateT.run (ExceptT.run session) earlier

/-! ## Laws -/

@[simp] theorem on_throw (problem : Problem) (earlier : List String) :
    (throw problem : Session α).on earlier = (.error problem, earlier) := rfl

@[simp] theorem on_writeLine (line : String) (earlier : List String) :
    (writeLine line).on earlier = (.ok (), earlier ++ [line]) := rfl

@[simp] theorem on_ofExcept (result : Except Problem α) (earlier : List String) :
    (ofExcept result).on earlier = (result, earlier) := rfl

/-- A session goes on from where the one before it ends; a problem ends both. -/
theorem on_bind (session : Session α) (next : α → Session β) (earlier : List String) :
    (session >>= next).on earlier =
      match session.on earlier with
      | (.ok a, lines) => (next a).on lines
      | (.error problem, lines) => (.error problem, lines) := by
  show StateT.run (ExceptT.run session >>= ExceptT.bindCont next) earlier = _
  rw [StateT.run_bind]
  unfold on
  rcases StateT.run (ExceptT.run session) earlier with ⟨_ | _, _⟩ <;> rfl

/-- A computation that ends well is followed by what comes behind it, and nothing is written in between. -/
theorem on_bind_of_ok {result : Except Problem α} {a : α} (h : result = .ok a) (next : α → Session β)
    (earlier : List String) : (ofExcept result >>= next).on earlier = (next a).on earlier := by
  rw [on_bind, on_ofExcept, h]

/-- Nothing comes behind a computation that ends with a problem. -/
theorem on_bind_of_error {result : Except Problem α} {problem : Problem} (h : result = .error problem)
    (next : α → Session β) (earlier : List String) :
    (ofExcept result >>= next).on earlier = (.error problem, earlier) := by
  rw [on_bind, on_ofExcept, h]

/-- Writing about some things adds a line for each of them. -/
theorem on_forM_writeLine (text : α → String) (items : List α) (earlier : List String) :
    (items.forM fun item => writeLine (text item)).on earlier = (.ok (), earlier ++ items.map text) := by
  induction items generalizing earlier with
  | nil =>
    rw [List.map_nil, List.append_nil]
    rfl
  | cons item items ih =>
    show (writeLine (text item) >>= fun _ => items.forM fun item => writeLine (text item)).on earlier = _
    rw [on_bind, on_writeLine]
    simp only
    rw [ih, List.map_cons, List.append_assoc, List.singleton_append]

end Session
end Command
end Chunkwise
