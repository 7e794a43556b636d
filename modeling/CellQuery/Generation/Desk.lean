import CellQuery.Generation.Basic

/-!
# Several generations

A desk keeps any number of generations. A handle gives access to one of them, and several handles
may share one. Tickets are numbered in the order in which they are issued.
-/

namespace CellQuery

/-- Generations, the handles to them and the tickets issued so far. -/
structure Desk where
  generations : List Generation
  /-- For each handle, which generation it gives access to. -/
  handles : List Nat
  /-- The tickets, each with the generation it is compared with. -/
  tickets : List (Nat × Ticket)
  deriving DecidableEq, Repr

namespace Desk

/-- What can be done at a desk. -/
inductive Step where
  /-- A handle to a generation of its own. -/
  | fresh
  /-- A further handle to the generation of a handle. -/
  | share (handle : Nat)
  | bump (handle : Nat)
  | ticketFor (handle : Nat) (version : UInt64)
  | free
  /-- A further ticket like the one with this number. -/
  | copy (ticket : Nat)
  deriving DecidableEq, Repr

/-- One generation, and a handle to it. -/
def initial : Desk :=
  ⟨[{}], [0], []⟩

/-- The generation with a number. There is always one with the numbers that handles hold. -/
def generation (d : Desk) (i : Nat) : Generation :=
  d.generations[i]?.getD {}

/-- What each handle gives access to. -/
def currents (d : Desk) : List Generation :=
  d.handles.map d.generation

/-- A ticket is compared with the generation it was issued in, as that stands now. -/
def isStale (d : Desk) (t : Nat × Ticket) : Bool :=
  t.2.isStale (d.generation t.1)

/-- Issues a ticket of the generation `i`, which `begin` moves on. -/
def issue (d : Desk) (i : Nat) (begin : Generation → Ticket × Generation) : Desk :=
  let (ticket, g) := begin (d.generation i)
  { d with generations := d.generations.set i g, tickets := d.tickets ++ [(i, ticket)] }

/-- The desk after a step, if the handle or ticket that the step names exists. -/
def step? (d : Desk) : Step → Option Desk
  | .fresh =>
    some { d with
      generations := d.generations ++ [{}]
      handles := d.handles ++ [d.generations.length] }
  | .share h => d.handles[h]?.map fun i => { d with handles := d.handles ++ [i] }
  | .bump h => d.handles[h]?.map fun i => d.issue i Generation.bump
  | .ticketFor h v => d.handles[h]?.map fun i => d.issue i (·.ticketFor v)
  | .free => some { d with tickets := d.tickets ++ [(0, Ticket.free)] }
  | .copy t => d.tickets[t]?.map fun ticket => { d with tickets := d.tickets ++ [ticket] }

end Desk

end CellQuery
