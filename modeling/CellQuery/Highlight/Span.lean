/-!
# Spans

Ranges of byte positions of a text, the end excluded, and their merging into the canonical form of
the set of positions they cover: in order, none empty, none touching the next.
-/

namespace CellQuery

/-- A range of byte positions, `stop` excluded. -/
structure Span where
  start : Nat
  stop : Nat
  deriving DecidableEq, Repr

namespace Span

/-- A span whose end lies before its start is as empty as one of length zero. -/
def length (s : Span) : Nat :=
  s.stop - s.start

/-- An empty span covers no position. -/
def isEmpty (s : Span) : Bool :=
  s.length == 0

/-- The positions that a list of spans covers. -/
def Covers (spans : List Span) (p : Nat) : Prop :=
  ∃ s ∈ spans, s.start ≤ p ∧ p < s.stop

/-- The order of merging: by start, then by end. -/
def upTo (a b : Span) : Bool :=
  a.start < b.start || (a.start == b.start && a.stop ≤ b.stop)

/-- Joins spans in order of their start, `current` before all of them, where they meet. -/
def joinFrom (current : Span) : List Span → List Span
  | [] => [current]
  | s :: rest =>
    if s.start ≤ current.stop then joinFrom ⟨current.start, max current.stop s.stop⟩ rest
    else current :: joinFrom s rest

/-- Joins spans that are in order of their start. -/
def joinSorted : List Span → List Span
  | [] => []
  | s :: rest => joinFrom s rest

/-- The canonical form of spans: sorted, without the empty ones, and joined where they meet. -/
def merge (spans : List Span) : List Span :=
  joinSorted ((spans.filter (!·.isEmpty)).mergeSort upTo)

end Span

end CellQuery
