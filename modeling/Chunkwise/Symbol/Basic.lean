import Chunkwise.Ascending
import Chunkwise.Symbol.Kind
import Chunkwise.Text.Basic

/-!
# Symbols

A symbol with its place in the text, and the lines where a chunk may start. `Symbol.outermost` picks the symbols
that no earlier one of the list reaches over; `mem_of_mem_outermost` says that it only picks.
-/

namespace Chunkwise

/-- A point of interest of a text. -/
structure Symbol where
  name : Option String
  kind : SymbolKind
  /-- First line, from 1. -/
  lineStart : Nat
  /-- Last line, from 1. -/
  lineEnd : Nat
  span : Span
  /-- Number of symbols around this one. -/
  depth : Nat
  /-- Name of the nearest symbol around this one. -/
  parent : Option String
deriving DecidableEq, Repr

namespace Symbol

/-- Number of bytes of a symbol. -/
def size (s : Symbol) : Nat := s.span.stop - s.span.start

/-- Whether a symbol has no bytes. -/
def isEmpty (s : Symbol) : Bool := s.span.stop ≤ s.span.start

/-- Whether another symbol lies inside this one. -/
def encloses (s other : Symbol) : Bool := s.span.encloses other.span

/-- Number of bytes of a symbol inside a span. -/
def overlap (s : Symbol) (span : Span) : Nat := s.span.shared span

/-- Reading order: by start, the longer one first, the less nested one first. -/
def le (a b : Symbol) : Bool :=
  a.span.start < b.span.start
    || (a.span.start == b.span.start
      && (b.span.stop < a.span.stop || (b.span.stop == a.span.stop && a.depth ≤ b.depth)))

/-- The symbols that begin where the last one picked has ended, or later. -/
def outermostFrom (covered : Nat) : List Symbol → List Symbol
  | [] => []
  | s :: rest => if covered ≤ s.span.start then s :: outermostFrom s.span.stop rest else outermostFrom covered rest

/-- The symbols of a list in reading order that are not inside an earlier one. -/
def outermost (symbols : List Symbol) : List Symbol := outermostFrom 0 symbols

theorem mem_of_mem_outermostFrom {s : Symbol} {covered : Nat} {symbols : List Symbol}
    (h : s ∈ outermostFrom covered symbols) : s ∈ symbols := by
  induction symbols generalizing covered with
  | nil => cases h
  | cons a rest ih =>
    rw [outermostFrom] at h
    split at h
    · rcases List.mem_cons.1 h with rfl | h
      · exact List.mem_cons_self
      · exact List.mem_cons_of_mem _ (ih h)
    · exact List.mem_cons_of_mem _ (ih h)

/-- The outermost symbols are symbols of the list. -/
theorem mem_of_mem_outermost {s : Symbol} {symbols : List Symbol} (h : s ∈ outermost symbols) : s ∈ symbols :=
  mem_of_mem_outermostFrom h

/-- The names of the symbols that share bytes with a span, comments apart, each once, first seen first. -/
def namesIn (symbols : List Symbol) (span : Span) : List String :=
  symbols.foldl (fun names s =>
    if s.kind.isDocumentation || s.overlap span == 0 then names
    else match s.name with
      | some name => if names.contains name then names else names ++ [name]
      | none => names) []

/-- The lines where a chunk may start: those of all symbols but attachments. -/
def boundaryLines (symbols : List Symbol) : List Nat :=
  Ascending.ofList ((symbols.filter (·.kind != .attachment)).map (·.lineStart))

end Symbol
end Chunkwise
