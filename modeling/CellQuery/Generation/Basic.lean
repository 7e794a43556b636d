/-!
# Generations

Every search belongs to a generation, and the latest generation is the one that counts. A ticket
remembers the generation it was issued for; it is stale as soon as that is not the latest one.
-/

namespace CellQuery

/-- The number of the latest generation. -/
structure Generation where
  current : UInt64 := 0
  deriving DecidableEq, Repr

/-- What a search carries along. A ticket that is not bound never becomes stale. -/
structure Ticket where
  version : UInt64
  bound : Bool
  deriving DecidableEq, Repr

namespace Ticket

/-- For a search that nothing supersedes. -/
def free : Ticket :=
  ⟨0, false⟩

/-- A bound ticket is stale once its generation is not the latest one. -/
def isStale (t : Ticket) (g : Generation) : Bool :=
  t.bound && t.version != g.current

/-- A value as long as the ticket is not stale. -/
def guard {α : Type} (t : Ticket) (g : Generation) (x : α) : Option α :=
  if t.isStale g then none else some x

end Ticket

namespace Generation

/-- Begins the next generation. -/
def bump (g : Generation) : Ticket × Generation :=
  let version := g.current + 1
  (⟨version, true⟩, ⟨version⟩)

/-- Begins the generation of a number given from outside. Generations only move forward, so an older
number leaves the latest one as it is, and its ticket is stale from the start. -/
def ticketFor (g : Generation) (version : UInt64) : Ticket × Generation :=
  (⟨version, true⟩, ⟨max g.current version⟩)

end Generation

end CellQuery
